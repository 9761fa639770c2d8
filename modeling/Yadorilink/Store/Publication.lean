import Yadorilink.Store.Tables

/-! The tables behind publication: checkpoints, the evidence that ties deltas
to them, and file versions. Nothing here verifies evidence; a table takes what
it is given, and refuses to replace one payload by another. -/

namespace Yadorilink

open Std Transaction

/-! ## Evidence -/

def storeCheckpoint (hash : BitVec 256) (envelope : CheckpointEnvelope) : Db Unit := fun store =>
  match store.checkpoints[hash]? with
  | none => .ok () { store with checkpoints := store.checkpoints.insert hash envelope }
  | some existing =>
    if existing = envelope then .ok () store
    else .error (.corruptState (.otherCheckpoint hash)) store

/-- Parks the evidence of a verified delta that may not be installed yet. -/
def recordPendingEvidence (deltaHash : DeltaHash) (evidence : DeltaEvidence) : Db Unit :=
  fun store =>
    match store.pending[deltaHash]? with
    | none => .ok () { store with pending := store.pending.insert deltaHash evidence }
    | some existing =>
      if existing = evidence then .ok () store
      else .error (.corruptState (.otherPendingEvidence deltaHash)) store

/-- Publishes a delta. A trigger refuses evidence of a checkpoint that is not
stored. -/
def attachDeltaEvidence (deltaHash : DeltaHash) (evidence : DeltaEvidence) : Db Unit :=
  fun store =>
    match store.published[deltaHash]? with
    | none =>
      if store.checkpoints.contains evidence.checkpointHash then
        .ok () { store with published := store.published.insert deltaHash evidence }
      else .error .constraint store
    | some existing =>
      if existing = evidence then .ok () store
      else .error (.corruptState (.otherEvidence deltaHash)) store

def takePendingEvidence (deltaHash : DeltaHash) : Db (Option DeltaEvidence) := fun store =>
  match store.pending[deltaHash]? with
  | none => .ok none store
  | some evidence =>
    .ok (some evidence) { store with pending := store.pending.erase deltaHash }

/-- Publishes a delta that is installed now with the evidence parked for it, if
there is any. -/
def attachParked (deltaHash : DeltaHash) : Db Unit := do
  match ← takePendingEvidence deltaHash with
  | none => return ()
  | some evidence => attachDeltaEvidence deltaHash evidence

def attachPendingEvidence : List Dot → Db Unit
  | [] => return ()
  | dot :: rest => do
      match (← get).log[dot]? with
      | none => attachPendingEvidence rest
      | some hash =>
        attachParked hash
        attachPendingEvidence rest

/-- The two stores differ in the tables of this module only. -/
def Store.SameState (before after : Store) : Prop :=
  after = { before with
    pending := after.pending
    published := after.published
    checkpoints := after.checkpoints
    versions := after.versions }

variable {after : Store}

theorem Store.SameState.trans {before middle : Store} (first : before.SameState middle)
    (second : middle.SameState after) : before.SameState after := by
  rw [Store.SameState] at first second ⊢
  rw [second, first]

variable {store : Store}

theorem storeCheckpoint_sameState {hash : BitVec 256} {envelope : CheckpointEnvelope}
    (ran : storeCheckpoint hash envelope store = .ok () after) : store.SameState after := by
  unfold storeCheckpoint at ran
  split at ran
  · cases ran
    rfl
  · split at ran
    · cases ran
      rfl
    · cases ran

theorem recordPendingEvidence_sameState {hash : DeltaHash} {evidence : DeltaEvidence}
    (ran : recordPendingEvidence hash evidence store = .ok () after) : store.SameState after := by
  unfold recordPendingEvidence at ran
  split at ran
  · cases ran
    rfl
  · split at ran
    · cases ran
      rfl
    · cases ran

theorem attachDeltaEvidence_sameState {hash : DeltaHash} {evidence : DeltaEvidence}
    (ran : attachDeltaEvidence hash evidence store = .ok () after) : store.SameState after := by
  unfold attachDeltaEvidence at ran
  split at ran
  · split at ran
    · cases ran
      rfl
    · cases ran
  · split at ran
    · cases ran
      rfl
    · cases ran

theorem attachParked_sameState {hash : DeltaHash} (ran : attachParked hash store = .ok () after) :
    store.SameState after := by
  rcases bind_eq_ok_iff.mp ran with ⟨taken, middle, took, attached⟩
  have first : store.SameState middle := by
    unfold takePendingEvidence at took
    split at took
    · cases took
      rfl
    · cases took
      rfl
  cases taken with
  | none =>
    cases attached
    exact first
  | some evidence => exact first.trans (attachDeltaEvidence_sameState attached)

theorem attachPendingEvidence_sameState {dots : List Dot}
    (ran : attachPendingEvidence dots store = .ok () after) : store.SameState after := by
  induction dots generalizing store with
  | nil =>
    cases ran
    rfl
  | cons dot rest induction =>
    unfold attachPendingEvidence at ran
    simp only [bind_apply, get_apply] at ran
    cases logged : store.log[dot]? with
    | none =>
      simp only [logged] at ran
      exact induction ran
    | some hash =>
      simp only [logged] at ran
      rcases bind_eq_ok_iff.mp ran with ⟨_, middle, attached, continued⟩
      exact (attachParked_sameState attached).trans (induction continued)

/-- Parked evidence can be attached: its checkpoint is stored, and what may
already be published of the delta is the same. -/
structure Store.Backed (store : Store) : Prop where
  stored : ∀ (hash : DeltaHash) evidence, store.pending[hash]? = some evidence →
    store.checkpoints.contains evidence.checkpointHash = true
  unforked : ∀ (hash : DeltaHash) evidence other, store.pending[hash]? = some evidence →
    store.published[hash]? = some other → other = evidence

theorem attachParked_ok (backed : store.Backed) (hash : DeltaHash) :
    ∃ after, attachParked hash store = .ok () after ∧ after.Backed ∧
      after.checkpoints = store.checkpoints ∧
      (∀ (known : DeltaHash) evidence, after.pending[known]? = some evidence →
        store.pending[known]? = some evidence) ∧
      ∀ (known : DeltaHash) evidence, after.published[known]? = some evidence →
        store.published[known]? = some evidence ∨ store.pending[known]? = some evidence := by
  cases parked : store.pending[hash]? with
  | none =>
    refine ⟨store, ?_, backed, rfl, fun _ _ known => known, fun _ _ known => Or.inl known⟩
    simp [attachParked, bind_apply, takePendingEvidence, parked]
  | some evidence =>
    have left : ∀ (known : DeltaHash) kept, (store.pending.erase hash)[known]? = some kept →
        store.pending[known]? = some kept ∧ hash ≠ known := by
      intro known kept found
      rw [OrderedMap.getElem?_erase_eq] at found
      split at found
      · cases found
      · rename_i other
        exact ⟨found, other⟩
    cases attached : store.published[hash]? with
    | none =>
      refine ⟨{ store with
          pending := store.pending.erase hash
          published := store.published.insert hash evidence }, ?_, ⟨?_, ?_⟩, rfl,
        fun known kept found => (left known kept found).1, ?_⟩
      · simp [attachParked, bind_apply, takePendingEvidence, parked,
          attachDeltaEvidence, attached, backed.stored hash evidence parked]
      · intro known kept found
        exact backed.stored known kept (left known kept found).1
      · intro known kept other found published
        rcases left known kept found with ⟨before, different⟩
        simp only [OrderedMap.getElem?_insert_eq, if_neg different] at published
        exact backed.unforked known kept other before published
      · intro known found published
        simp only [OrderedMap.getElem?_insert_eq] at published
        split at published
        · rename_i same
          cases published
          exact Or.inr (same ▸ parked)
        · exact Or.inl published
    | some other =>
      have same := backed.unforked hash evidence other parked attached
      refine ⟨{ store with pending := store.pending.erase hash }, ?_, ⟨?_, ?_⟩, rfl,
        fun known kept found => (left known kept found).1, fun _ _ known => Or.inl known⟩
      · simp [attachParked, bind_apply, takePendingEvidence, parked,
          attachDeltaEvidence, attached, same]
      · intro known kept found
        exact backed.stored known kept (left known kept found).1
      · intro known kept published found
        exact backed.unforked known kept published (left known kept found).1

theorem attachPendingEvidence_ok (backed : store.Backed) (dots : List Dot) :
    ∃ after, attachPendingEvidence dots store = .ok () after := by
  induction dots generalizing store with
  | nil => exact ⟨store, rfl⟩
  | cons dot rest induction =>
    cases logged : store.log[dot]? with
    | none =>
      rcases induction backed with ⟨after, ran⟩
      refine ⟨after, ?_⟩
      simpa [attachPendingEvidence, bind_apply, logged] using ran
    | some hash =>
      rcases attachParked_ok backed hash with ⟨middle, attached, stays, _⟩
      rcases induction stays with ⟨after, ran⟩
      refine ⟨after, ?_⟩
      simpa [attachPendingEvidence, bind_apply, logged, attached] using ran

/-! ## Versions -/

/-- A stored version, checked against the hash it is stored under. -/
def getFileVersion (crypto : Crypto) (store : Store) (hash : VersionHash) :
    Except StoreError (Option FileVersion) :=
  match store.versions[hash]? with
  | none => .ok none
  | some version =>
    if !version.decodable then .error (.notFound .corruptVersion)
    else if version.computeHash crypto ≠ hash then .error (.notFound .versionHash)
    else .ok (some version)

def putFileVersion (crypto : Crypto) (version : FileVersion) : Db Bool := fun store =>
  match version.validateStructure with
  | .error failure => .error (.invalidInput (.fileVersion failure)) store
  | .ok () =>
    let hash := version.computeHash crypto
    if store.versions.contains hash then .ok false store
    else .ok true { store with versions := store.versions.insert hash version }

def NativeDelta.versionsNamed (delta : NativeDelta) : List VersionHash :=
  delta.ops.filterMap fun op => op.put.map DeltaPut.version

/-- Stores the versions a batch entry carried. One that does not decode, or
that the delta's puts do not name, is dropped. -/
def storeCarriedVersions (crypto : Crypto) (delta : NativeDelta) : List FileVersion → Db Nat
  | [] => return 0
  | version :: rest =>
    if version.decodable && delta.versionsNamed.contains (version.computeHash crypto) then do
      let _ ← putFileVersion crypto version
      let stored ← storeCarriedVersions crypto delta rest
      return stored + 1
    else storeCarriedVersions crypto delta rest

theorem storeCarriedVersions_ok (crypto : Crypto) (delta : NativeDelta)
    (versions : List FileVersion) (store : Store) :
    ∃ stored table, storeCarriedVersions crypto delta versions store =
      .ok stored { store with versions := table } := by
  induction versions generalizing store with
  | nil => exact ⟨0, store.versions, rfl⟩
  | cons version rest induction =>
    unfold storeCarriedVersions
    split
    · rename_i accepted
      rw [Bool.and_eq_true, FileVersion.decodable, Bool.and_eq_true] at accepted
      cases checked : version.validateStructure with
      | error failure =>
        rw [checked] at accepted
        exact absurd accepted.1.2 (by simp [Except.isOk, Except.toBool])
      | ok passed =>
        have puts : ∃ new table, putFileVersion crypto version store =
            .ok new { store with versions := table } := by
          unfold putFileVersion
          rw [checked]
          dsimp only
          split
          · exact ⟨false, store.versions, rfl⟩
          · exact ⟨true, _, rfl⟩
        rcases puts with ⟨new, table, put⟩
        rcases induction { store with versions := table } with ⟨stored, last, ran⟩
        refine ⟨stored + 1, last, ?_⟩
        rw [bind_apply, put]
        dsimp only
        rw [bind_apply, ran]
        rfl
    · exact induction store

end Yadorilink
