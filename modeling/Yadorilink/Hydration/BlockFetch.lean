import Yadorilink.Chunking.Committer
import Yadorilink.Domain.Ids

/-! Fetching one block from one peer. A request goes through three layers: the exchange on a stream,
the response timeout around it, and the bounded retries of a busy peer. Each of them merges
outcomes the one below still tells apart. -/

namespace Yadorilink.Hydration

open Chunking (BlockInfo)

abbrev Bytes := List UInt8

def maxBlockSize : Nat := 16 * 1024 * 1024

def compressionZstd : Int := 1

/-- The hash and the decompressor, neither of them this repository's. -/
structure Codec where
  sha256 : Bytes → Bytes
  zstdDecode : Bytes → Option Bytes

/-! ## One exchange -/

inductive BlockResponseOutcome where
  | found (size : Nat) (hash : Bytes) (compression : Int)
  | dontHave
  | busy (retryAfterMs : Nat)
  | rejected (reason : String)
  deriving DecidableEq

/-- What happens on the stream: where it breaks, or the response header and what is read of the body
after it. -/
inductive Exchange where
  | notOpened
  | headerNotEncoded
  | headerNotSent
  | noResponse
  | malformedResponse
  | response (outcome : BlockResponseOutcome) (body : Option Bytes)
  deriving DecidableEq

inductive FetchOutcome where
  | found (data : Bytes)
  | notFound
  | unusable
  | timedOut
  | busy (retryAfterMs : Nat)
  | rejected (reason : String)
  deriving DecidableEq

def FetchOutcome.intoBytes : FetchOutcome → Option Bytes
  | .found data => some data
  | .notFound => none
  | .unusable => none
  | .timedOut => none
  | .busy _ => none
  | .rejected _ => none

/-- One request and what comes of it within the response timeout. -/
inductive Attempt where
  | silent
  | exchanged (exchange : Exchange)
  deriving DecidableEq

/-- The peer did not answer, the stream broke, or the peer was busy. -/
def Attempt.inconclusive (hash : Bytes) : Attempt → Bool
  | .silent => true
  | .exchanged .notOpened => true
  | .exchanged .headerNotEncoded => true
  | .exchanged .headerNotSent => true
  | .exchanged .noResponse => true
  | .exchanged .malformedResponse => false
  | .exchanged (.response .dontHave _) => false
  | .exchanged (.response (.busy _) _) => true
  | .exchanged (.response (.rejected _) _) => false
  | .exchanged (.response (.found size echoedHash _) body) =>
    echoedHash == hash && decide (size ≤ maxBlockSize) && body.isNone

namespace Codec

variable (codec : Codec)

def decompressBlock (data : Bytes) (compression : Int) : Option Bytes :=
  if compression = compressionZstd then
    (codec.zstdDecode data).filter fun out => decide (out.length ≤ maxBlockSize)
  else
    some data

def resolveBlockBytes (data : Bytes) (compression : Int) : FetchOutcome :=
  match codec.decompressBlock data compression with
  | some decompressed => .found decompressed
  | none => .unusable

def fetchBlockOverStream (hash : Bytes) : Exchange → FetchOutcome
  -- Every failure of the transport is reported as if the peer had said it has no such block.
  | .notOpened => .notFound
  | .headerNotEncoded => .notFound
  | .headerNotSent => .notFound
  | .noResponse => .notFound
  | .malformedResponse => .unusable
  | .response .dontHave _ => .notFound
  | .response (.busy retryAfterMs) _ => .busy retryAfterMs
  | .response (.rejected reason) _ => .rejected reason
  | .response (.found size echoedHash compression) body =>
    if echoedHash ≠ hash ∨ maxBlockSize < size then
      .unusable
    else
      match body with
      | none => .notFound
      | some data => codec.resolveBlockBytes data compression

def fetchBlockRaw (hash : Bytes) : Attempt → FetchOutcome
  | .silent => .timedOut
  | .exchanged exchange => codec.fetchBlockOverStream hash exchange

def busyRetryAttempts : Nat := 5

/-- The attempt that ends a fetch: the first that is not a busy answer, or the last one made. -/
def endedBy (hash : Bytes) : Nat → List Attempt → Option Attempt
  | _, [] => none
  | number, attempt :: attempts =>
    match codec.fetchBlockRaw hash attempt with
    | .busy _ =>
      if number < busyRetryAttempts then endedBy hash (number + 1) attempts else some attempt
    | _ => some attempt

/-- The answer of a fetch, once one of the attempts has ended it. -/
def fetchBlockSized (hash : Bytes) (attempts : List Attempt) : Option (Option Bytes) :=
  (codec.endedBy hash 1 attempts).map fun attempt =>
    (codec.fetchBlockRaw hash attempt).intoBytes

def blockDataMatches (block : BlockInfo) (data : Bytes) : Bool :=
  data.length == block.size && codec.sha256 data == block.hash

/-! ## What an attempt says -/

/-- The peer said that it has no such block or will not give it, or what it gave is not the block. -/
def definitive (block : BlockInfo) : Attempt → Bool
  | .silent => false
  | .exchanged .notOpened => false
  | .exchanged .headerNotEncoded => false
  | .exchanged .headerNotSent => false
  | .exchanged .noResponse => false
  | .exchanged .malformedResponse => true
  | .exchanged (.response .dontHave _) => true
  | .exchanged (.response (.busy _) _) => false
  | .exchanged (.response (.rejected _) _) => true
  | .exchanged (.response (.found size hash compression) body) =>
    hash != block.hash || decide (maxBlockSize < size) || body.any fun data =>
      match codec.decompressBlock data compression with
      | some decompressed => !codec.blockDataMatches block decompressed
      | none => true

theorem definitive_of_conclusive {block : BlockInfo} {attempt : Attempt}
    (conclusive : attempt.inconclusive block.hash = false)
    (gave : ∀ data, (codec.fetchBlockRaw block.hash attempt).intoBytes = some data →
      codec.blockDataMatches block data = false) :
    codec.definitive block attempt = true := by
  cases attempt with
  | silent => cases conclusive
  | exchanged exchange =>
    cases exchange with
    | notOpened => cases conclusive
    | headerNotEncoded => cases conclusive
    | headerNotSent => cases conclusive
    | noResponse => cases conclusive
    | malformedResponse => rfl
    | response outcome body =>
      cases outcome with
      | dontHave => rfl
      | busy retryAfterMs => cases conclusive
      | rejected reason => rfl
      | found size hash compression =>
        rw [fetchBlockRaw, fetchBlockOverStream.eq_def] at gave
        dsimp only at gave
        rw [definitive]
        by_cases other : hash ≠ block.hash
        · rw [bne_iff_ne.mpr other]
          rfl
        · have same := not_not.mp other
          subst same
          by_cases large : maxBlockSize < size
          · rw [decide_eq_true large, Bool.or_true]
            rfl
          · cases body with
            | none =>
              rw [Attempt.inconclusive, beq_self_eq_true,
                decide_eq_true (Nat.le_of_not_lt large)] at conclusive
              cases conclusive
            | some data =>
              rw [if_neg (not_or.mpr ⟨not_not.mpr rfl, large⟩)] at gave
              dsimp only at gave
              rw [resolveBlockBytes] at gave
              cases given : codec.decompressBlock data compression with
              | none => simp [given]
              | some decompressed =>
                rw [given] at gave
                simp [given, gave decompressed rfl]

theorem definitive_congr {first second : BlockInfo} (hash : first.hash = second.hash)
    (size : first.size = second.size) (attempt : Attempt) :
    codec.definitive first attempt = codec.definitive second attempt := by
  cases attempt with
  | silent => rfl
  | exchanged exchange =>
    cases exchange with
    | response outcome body =>
      cases outcome with
      | found size hash compression => simp [definitive, blockDataMatches, *]
      | _ => rfl
    | _ => rfl

end Codec

end Yadorilink.Hydration
