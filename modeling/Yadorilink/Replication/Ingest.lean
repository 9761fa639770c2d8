import Yadorilink.Admission.Isolation
import Yadorilink.Replication.Serving

/-! Admission of a delta that carries its evidence, and of a batch of them.
Each entry is one transaction, with the versions it carries: a head is never
committed without the versions it names. -/

namespace Yadorilink

open Std

/-! ## One proof-carrying delta -/

def NativeAdmission.newlyInstalled : NativeAdmission → List Dot
  | .admitted dot released => dot :: released
  | _ => []

/-- The proof of a delta that was already installed may come late. -/
def attachToDuplicate (crypto : Crypto) (delta : NativeDelta) : NativeAdmission → Db Unit
  | .duplicate => do
      match (← get).log[delta.dot]? with
      | none => return ()
      | some hash =>
        if hash ≠ delta.deltaHash crypto then
          throw (.corruptState (.otherLoggedHash delta.dot))
        else
          attachParked hash
  | _ => return ()

/-- The admission of a delta whose evidence is parked. The delta's own key is
the one that came with it. -/
def admitParked (crypto : Crypto) (groupId : FolderGroupId) (input : ProofCarryingDelta)
    (keyFor : KeyFor) (now : Int) : Db NativeAdmission :=
  if !crypto.validKey input.envelope.authorSigningPublicKey then
    throw (.invalidInput .authorKey)
  else do
    let outcome ← admitNativeDeltaWithKey crypto groupId input.delta
      input.envelope.authorSigningPublicKey keyFor now
    attachPendingEvidence outcome.newlyInstalled
    attachToDuplicate crypto input.delta outcome
    return outcome

/-- Stores the checkpoint and parks the evidence of a verified delta. -/
def parkEvidence (crypto : Crypto) (input : ProofCarryingDelta) : Db Unit := do
  storeCheckpoint input.checkpointHash input.envelope
  recordPendingEvidence (input.delta.deltaHash crypto) ⟨input.checkpointHash, input.proof⟩

def admitPublishedNativeDelta (crypto : Crypto) (groupId : FolderGroupId)
    (input : ProofCarryingDelta) (keyFor : KeyFor) (authorityKey : AuthorityKeyFor) (now : Int) :
    Db NativeAdmission :=
  match verifyProofCarryingDelta crypto input groupId authorityKey with
  | .error error => return .unauthorized error
  | .ok () => do
      parkEvidence crypto input
      admitParked crypto groupId input keyFor now

/-! ## A batch -/

/-- What this side knows about the peer and the group's policy. -/
structure PeerAccess where
  keyFor : KeyFor
  authorityKey : AuthorityKeyFor
  /-- Whether the policy chain vouches for a checkpoint's policy point. -/
  policyPoint : AuthorizationCheckpoint → Bool

inductive Rejection where
  | policyPoint (policySeq : Nat)
  | storage (failure : StoreError)
  | versionsNotStored (failure : StoreError)
  | refused (admission : NativeAdmission)
deriving DecidableEq

structure IngestReport where
  admitted : Nat
  duplicates : Nat
  held : Nat
  rejected : List Rejection
deriving DecidableEq

def IngestReport.reject (report : IngestReport) (rejection : Rejection) : IngestReport :=
  { report with rejected := report.rejected ++ [rejection] }

def IngestReport.count (report : IngestReport) : NativeAdmission → IngestReport
  | .admitted _ released => { report with admitted := report.admitted + 1 + released.length }
  | .duplicate => { report with duplicates := report.duplicates + 1 }
  | .held _ => { report with held := report.held + 1 }
  | other => report.reject (.refused other)

/-- Whether the delta verified, so that its versions will be needed. -/
def NativeAdmission.verified : NativeAdmission → Bool
  | .admitted _ _ | .duplicate | .held _ => true
  | _ => false

section Ingest

variable (crypto : Crypto) (groupId : FolderGroupId) (peer : PeerAccess)

def ingestEntry (now : Int) (entry : DeltaBatchEntry) (store : Store) (report : IngestReport) :
    Store × IngestReport :=
  if !peer.policyPoint entry.envelope.checkpoint then
    (store, report.reject (.policyPoint entry.envelope.checkpoint.policySeq))
  else
    match admitPublishedNativeDelta crypto groupId entry.toProofCarryingDelta peer.keyFor
        peer.authorityKey now store with
    | .error failure _ => (store, report.reject (.storage failure))
    | .ok admission after =>
      if admission.verified then
        match storeCarriedVersions crypto entry.delta entry.versions after with
        | .error failure _ => (store, report.reject (.versionsNotStored failure))
        | .ok _ final => (final, report.count admission)
      else
        (after, report.count admission)

/-- Admits the entries in order; `clock` gives the time each one is reached. -/
def ingestFrom (clock : Nat → Int) : Nat → List DeltaBatchEntry → Store → IngestReport →
    Store × IngestReport
  | _, [], store, report => (store, report)
  | index, entry :: rest, store, report =>
    let next := ingestEntry crypto groupId peer (clock index) entry store report
    ingestFrom clock (index + 1) rest next.1 next.2

def ingest (clock : Nat → Int) (entries : List DeltaBatchEntry) (store : Store) :
    Store × IngestReport :=
  ingestFrom crypto groupId peer clock 0 entries store ⟨0, 0, 0, []⟩

def serveLimit : Nat := 2048

def serveBytes : Nat := 16 * 1024 * 1024

/-- One pull round: the requester's store after it named its positions, the
server answered, and the answer was admitted. -/
def pullRound (clock : Nat → Int) (device : DeviceId) (server requester : Store) : Store :=
  match deltasToServeWithin crypto server device (frontierSince requester) serveLimit
      serveBytes with
  | .ok (.ok served) => (ingest crypto groupId peer clock served.entries requester).1
  | _ => requester

end Ingest

end Yadorilink
