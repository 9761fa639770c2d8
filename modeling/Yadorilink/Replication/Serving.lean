import Yadorilink.Foundation.Budget
import Yadorilink.Store.Publication

/-! What a replica tells a peer it has, and which of its published deltas it
answers with. An answer is cut by count and by bytes; the requester asks again
for the rest. -/

namespace Yadorilink

open Std List Option

/-! ## Positions -/

/-- One author's position. Only a response names the tip. -/
structure FrontierEntry where
  author : AuthorId
  seq : Nat
  tip : Option DeltaHash
deriving DecidableEq

def frontierEntries (store : Store) (withTips : Bool) : List FrontierEntry :=
  store.frontier.toList.map fun position =>
    ⟨position.1, position.2.seq, if withTips then some position.2.tip else none⟩

/-- The authors with a live head whose version is not stored, each with the
lowest sequence among those heads. -/
def unresolvedHeadPositions (store : Store) : ExtTreeMap AuthorId Nat :=
  store.heads.toList.foldl (fun positions row =>
    if store.versions.contains row.2.version then positions
    else
      let dot := row.1.dot
      positions.insert dot.author (min dot.seq (positions[dot.author]?.getD dot.seq))) ∅

/-- Every author's position, moved back before a head whose version is missing
so that its delta is served again. -/
def frontierSince (store : Store) : List FrontierEntry :=
  let unresolved := unresolvedHeadPositions store
  (frontierEntries store false).filterMap fun entry =>
    match unresolved[entry.author]? with
    | some lowest =>
      let seq := min (lowest - 1) entry.seq
      if seq = 0 then none else some { entry with seq := seq }
    | none => some entry

/-- The position named for an author, 0 when none is; the first entry counts. -/
def sincePosition (since : List FrontierEntry) (author : AuthorId) : Nat :=
  ((since.find? fun entry => entry.author = author).map FrontierEntry.seq).getD 0

/-! ## Answers -/

/-- A delta with its evidence and the versions its sender has of it. -/
structure DeltaBatchEntry extends ProofCarryingDelta where
  versions : List FileVersion
deriving DecidableEq

def DeltaBatchEntry.bytes (crypto : Crypto) (entry : DeltaBatchEntry) : Nat :=
  (entry.delta.toWireBytes crypto).length +
    (canonicalSigningBytes entry.envelope.checkpoint).length +
    (encodeMerkleProof entry.proof).length + (entry.versions.map FileVersion.encodedLen).sum

inductive ServeRefusal where
  | bodyUnavailable (author : AuthorId) (seq : Nat)
  | historyTruncated (author : AuthorId) (seq : Nat) (checkpointId frontierRoot : BitVec 256)
deriving DecidableEq

structure Served where
  entries : List DeltaBatchEntry
  /-- The authors whose next delta is not published yet. -/
  unpublishedTail : List AuthorId
deriving DecidableEq

/-- An answer being built, with the bytes in it so far. The source's sum stops
at the largest word, which is beyond any budget. -/
structure Serving extends Served where
  bytes : Nat

def Serving.start : Serving := ⟨⟨[], []⟩, 0⟩

def Serving.full (serving : Serving) (limit maxBytes : Nat) : Bool :=
  limit ≤ serving.entries.length || maxBytes ≤ serving.bytes

def Serving.push (crypto : Crypto) (serving : Serving) (entry : DeltaBatchEntry) : Serving :=
  ⟨⟨serving.entries ++ [entry], serving.unpublishedTail⟩, serving.bytes + entry.bytes crypto⟩

/-- A rebootstrap that withholds this device's own deltas from peers. -/
def ownDeltasWithheld (store : Store) : Bool :=
  store.journal.any fun row =>
    row.state = .capturing || row.state = .preserving || row.state = .preserved ||
      row.state = .quarantining

def withheldOwnDevice (store : Store) (device : DeviceId) : Option DeviceId :=
  if ownDeltasWithheld store then some device else none

/-- At or below the history floor a body was dropped legitimately. -/
def missingBodyRefusal (store : Store) (author : AuthorId) (seq : Nat) : ServeRefusal :=
  match store.historyFloor, store.floor[author]? with
  | some floor, some entry =>
    if seq ≤ entry.seq then
      .historyTruncated author seq floor.checkpointId floor.floorFrontierRoot
    else
      .bodyUnavailable author seq
  | _, _ => .bodyUnavailable author seq

def heldVersions (crypto : Crypto) (store : Store) :
    List VersionHash → Except StoreError (List FileVersion)
  | [] => .ok []
  | hash :: rest => do
      let found ← getFileVersion crypto store hash
      let others ← heldVersions crypto store rest
      return found.toList ++ others

/-- The versions the delta's puts name that are held, each once. -/
def carriedVersions (crypto : Crypto) (store : Store) (delta : NativeDelta) :
    Except StoreError (List FileVersion) :=
  heldVersions crypto store delta.versionsNamed.eraseDups

/-- Serves one author's sequences until the answer is full. -/
def serveSeqs (crypto : Crypto) (store : Store) (author : AuthorId) (limit maxBytes : Nat) :
    List Nat → Serving → Except StoreError (Except ServeRefusal Serving)
  | [], serving => .ok (.ok serving)
  | seq :: rest, serving =>
    if serving.full limit maxBytes then .ok (.ok serving)
    else
      match store.bodies[(⟨author, seq⟩ : Dot)]? with
      | none => .ok (.error (missingBodyRefusal store author seq))
      | some body =>
        match store.published[body.delta.deltaHash crypto]? with
        | none =>
          .ok (.ok { serving with unpublishedTail := serving.unpublishedTail ++ [author] })
        | some evidence =>
          match store.checkpoints[evidence.checkpointHash]? with
          | none => .error (.corruptState .missingEnvelope)
          | some envelope =>
            match carriedVersions crypto store body.delta with
            | .error failure => .error failure
            | .ok versions =>
              serveSeqs crypto store author limit maxBytes rest (serving.push crypto
                ⟨⟨body.delta, evidence.checkpointHash, envelope, evidence.proof⟩, versions⟩)

/-- Serves the authors in their order, each from after the position named. -/
def serveAuthors (crypto : Crypto) (store : Store) (device : DeviceId)
    (since : List FrontierEntry) (limit maxBytes : Nat) :
    List (AuthorId × NativeAuthorFrontierEntry) → Serving →
      Except StoreError (Except ServeRefusal Serving)
  | [], serving => .ok (.ok serving)
  | (author, position) :: rest, serving =>
    if serving.full limit maxBytes then .ok (.ok serving)
    else if withheldOwnDevice store device = some author.device then
      serveAuthors crypto store device since limit maxBytes rest serving
    else
      let from_ := sincePosition since author
      match serveSeqs crypto store author limit maxBytes
          (List.range' (from_ + 1) (position.seq - from_)) serving with
      | .error failure => .error failure
      | .ok (.error refusal) => .ok (.error refusal)
      | .ok (.ok next) => serveAuthors crypto store device since limit maxBytes rest next

/-- At most `limit` published deltas beyond `since`, and no more once they
total `maxBytes`. The entry that crosses the budget is still served. -/
def deltasToServeWithin (crypto : Crypto) (store : Store) (device : DeviceId)
    (since : List FrontierEntry) (limit maxBytes : Nat) :
    Except StoreError (Except ServeRefusal Served) :=
  match serveAuthors crypto store device since limit maxBytes store.frontier.toList .start with
  | .error failure => .error failure
  | .ok (.error refusal) => .ok (.error refusal)
  | .ok (.ok serving) => .ok (.ok serving.toServed)

/-! ## What an answer holds -/

/-- The entry a published delta of this replica is served as. -/
def entryFor (crypto : Crypto) (store : Store) (delta : NativeDelta) : Option DeltaBatchEntry :=
  (store.published[delta.deltaHash crypto]?).bind fun evidence =>
    (store.checkpoints[evidence.checkpointHash]?).bind fun envelope =>
      (carriedVersions crypto store delta).toOption.map fun versions =>
        ⟨⟨delta, evidence.checkpointHash, envelope, evidence.proof⟩, versions⟩

def entryAt (crypto : Crypto) (store : Store) (dot : Dot) : Option DeltaBatchEntry :=
  (store.bodies[dot]?).bind fun body => entryFor crypto store body.delta

/-- The entries of one author after `since`, up to its position. -/
def entriesAfter (crypto : Crypto) (store : Store) (author : AuthorId) (since position : Nat) :
    List DeltaBatchEntry :=
  (List.range' (since + 1) (position - since)).filterMap fun seq =>
    entryAt crypto store ⟨author, seq⟩

theorem entryFor_eq_some {crypto : Crypto} {store : Store} {delta : NativeDelta}
    {entry : DeltaBatchEntry} (served : entryFor crypto store delta = some entry) :
    ∃ evidence envelope versions, store.published[delta.deltaHash crypto]? = some evidence ∧
      store.checkpoints[evidence.checkpointHash]? = some envelope ∧
      carriedVersions crypto store delta = .ok versions ∧
      entry = ⟨⟨delta, evidence.checkpointHash, envelope, evidence.proof⟩, versions⟩ := by
  simp only [entryFor, bind_eq_some_iff, map_eq_some_iff] at served
  rcases served with ⟨evidence, published, envelope, stored, versions, carried, rfl⟩
  refine ⟨evidence, envelope, versions, published, stored, ?_, rfl⟩
  cases held : carriedVersions crypto store delta with
  | error failure =>
    rw [held] at carried
    cases carried
  | ok found =>
    rw [held] at carried
    cases carried
    rfl

def Serving.pushAll (crypto : Crypto) (serving : Serving) (entries : List DeltaBatchEntry) :
    Serving :=
  ⟨⟨serving.entries ++ entries, serving.unpublishedTail⟩,
    serving.bytes + (entries.map (DeltaBatchEntry.bytes crypto)).sum⟩

section Answer

variable {crypto : Crypto} {store : Store} {limit maxBytes : Nat}

theorem Serving.pushAll_nil (serving : Serving) : serving.pushAll crypto [] = serving := by
  rw [pushAll, append_nil]
  rfl

theorem Serving.pushAll_push (serving : Serving) (entry : DeltaBatchEntry)
    (entries : List DeltaBatchEntry) :
    (serving.push crypto entry).pushAll crypto entries =
      serving.pushAll crypto (entry :: entries) := by
  simp [pushAll, push, Nat.add_assoc]

theorem Serving.pushAll_pushAll (serving : Serving) (first second : List DeltaBatchEntry) :
    (serving.pushAll crypto first).pushAll crypto second =
      serving.pushAll crypto (first ++ second) := by
  simp [pushAll, Nat.add_assoc]

variable (limit maxBytes) in
def Serving.fitting (crypto : Crypto) (serving : Serving) (entries : List DeltaBatchEntry) :
    List DeltaBatchEntry :=
  Budget.takeWithin (DeltaBatchEntry.bytes crypto) (limit - serving.entries.length)
    (maxBytes - serving.bytes) entries

variable {serving : Serving}

theorem Serving.fitting_full (full : serving.full limit maxBytes = true)
    (entries : List DeltaBatchEntry) : serving.fitting limit maxBytes crypto entries = [] := by
  apply Budget.takeWithin_spent
  simp only [Serving.full, Bool.or_eq_true, decide_eq_true_eq] at full
  omega

theorem Serving.fitting_cons (notFull : serving.full limit maxBytes = false)
    (entry : DeltaBatchEntry) (entries : List DeltaBatchEntry) :
    serving.fitting limit maxBytes crypto (entry :: entries) =
      entry :: (serving.push crypto entry).fitting limit maxBytes crypto entries := by
  simp only [Serving.full, Bool.or_eq_false_iff, decide_eq_false_iff_not] at notFull
  rw [fitting, Budget.takeWithin, if_neg (by omega), fitting, push, Nat.sub_sub, Nat.sub_sub]
  simp only [length_append, length_singleton]

theorem Serving.fitting_append (serving : Serving) (first second : List DeltaBatchEntry) :
    serving.fitting limit maxBytes crypto (first ++ second) =
      serving.fitting limit maxBytes crypto first ++
        (serving.pushAll crypto (serving.fitting limit maxBytes crypto first)).fitting limit
          maxBytes crypto second := by
  rw [fitting, Budget.takeWithin_append, ← fitting, fitting, pushAll]
  simp only [fitting, length_append, Nat.sub_sub]

theorem serveSeqs_eq {author : AuthorId} {seqs : List Nat}
    (servable : ∀ seq, seq ∈ seqs → (entryAt crypto store ⟨author, seq⟩).isSome = true) :
    serveSeqs crypto store author limit maxBytes seqs serving =
      .ok (.ok (serving.pushAll crypto (serving.fitting limit maxBytes crypto
        (seqs.filterMap fun seq => entryAt crypto store ⟨author, seq⟩)))) := by
  induction seqs generalizing serving with
  | nil =>
    rw [filterMap_nil, Serving.fitting, Budget.takeWithin, Serving.pushAll_nil]
    rfl
  | cons seq rest induction =>
    cases full : serving.full limit maxBytes with
    | true =>
      rw [serveSeqs, if_pos full, Serving.fitting_full full, Serving.pushAll_nil]
    | false =>
      rcases isSome_iff_exists.mp (servable seq (.head _)) with
        ⟨entry, served⟩
      rcases bind_eq_some_iff.mp served with ⟨body, stored, isEntry⟩
      rcases entryFor_eq_some isEntry with
        ⟨evidence, envelope, versions, published, kept, carried, rfl⟩
      rw [filterMap_cons, served]
      dsimp only
      rw [Serving.fitting_cons full, ← Serving.pushAll_push, ← induction fun later member => servable later (.tail seq member)]
      simp [serveSeqs, full, stored, published, kept, carried]

theorem serveAuthors_eq {device : DeviceId} {since : List FrontierEntry}
    {authors : List (AuthorId × NativeAuthorFrontierEntry)}
    (open_ : ownDeltasWithheld store = false)
    (servable : ∀ position, position ∈ authors → ∀ seq, 1 ≤ seq → seq ≤ position.2.seq →
      (entryAt crypto store ⟨position.1, seq⟩).isSome = true) :
    serveAuthors crypto store device since limit maxBytes authors serving =
      .ok (.ok (serving.pushAll crypto (serving.fitting limit maxBytes crypto
        (authors.flatMap fun position => entriesAfter crypto store position.1
          (sincePosition since position.1) position.2.seq)))) := by
  induction authors generalizing serving with
  | nil =>
    rw [flatMap_nil, Serving.fitting, Budget.takeWithin, Serving.pushAll_nil]
    rfl
  | cons first rest induction =>
    rcases first with ⟨author, position⟩
    cases full : serving.full limit maxBytes with
    | true =>
      rw [serveAuthors, if_pos full, Serving.fitting_full full, Serving.pushAll_nil]
    | false =>
      have notWithheld : withheldOwnDevice store device = none := by
        rw [withheldOwnDevice, open_]
        rfl
      have own := servable (author, position) (.head _)
      have others := fun later member =>
        servable later (.tail (author, position) member)
      rw [serveAuthors, full, notWithheld]
      simp only [Bool.false_eq_true, if_false, reduceCtorEq]
      rw [serveSeqs_eq ?ownServable]
      case ownServable =>
        intro seq inRange
        rw [mem_range'_1] at inRange
        exact own seq (by omega) (by simp only; omega)
      dsimp only
      rw [induction others, flatMap_cons, Serving.fitting_append, Serving.pushAll_pushAll]
      rfl

end Answer

end Yadorilink
