import Yadorilink.Store.Sound

/-! Local authoring: a replica signs its own edits and installs them in the
same transaction. One op carries a bounded number of removals, so a mutation
that supersedes more heads is signed as a chain of deltas, of which only the
last one lands content. -/

namespace Yadorilink

open Std Transaction List

/-- How a device signs as an author, and the key others know the author by. -/
structure Signer where
  sign : AuthorId → List UInt8 → Signature
  keyOf : AuthorId → VerifyingKey

/-! ## One edit for each path -/

def addObserved (observed : List Dot) (dot : Dot) : List Dot :=
  if dot ∈ observed then observed else observed ++ [dot]

def mergeEdit (merged : ExtTreeMap SyncPath PathEdit) (edit : PathEdit) :
    Except StoreError (ExtTreeMap SyncPath PathEdit) :=
  match merged[edit.path]? with
  | none => .ok (merged.insert edit.path edit)
  | some existing =>
    if existing.put.isSome && edit.put.isSome then
      .error (.invalidInput (.twoPuts edit.path))
    else
      .ok (merged.insert edit.path {
        path := existing.path
        observed := edit.observed.foldl addObserved existing.observed
        put := if existing.put.isNone then edit.put else existing.put })

/-- Combines the edits at one path into one, in path order. -/
def mergeEdits (edits : List PathEdit) : Except StoreError (List PathEdit) := do
  let merged ← edits.foldlM mergeEdit ∅
  return merged.toList.map Prod.snd

/-! ## The deltas of one mutation -/

/-- How many deltas the removals of `edits` need, at least one. -/
def chainRounds (edits : List PathEdit) : Nat :=
  max 1 ((edits.map fun edit =>
    (edit.observed.length + (maxRemovesPerOp - 1)) / maxRemovesPerOp).foldl max 0)

def provenanceOf (state : NativeState) (path : SyncPath) (dot : Dot) : DeltaHash :=
  (((state.headsAt path).find? fun head => head.dot = dot).map
    fun head => head.payload.provenance).getD default

/-- What one round of the chain does at one path, if anything. -/
def roundOp (state : NativeState) (round : Nat) (lastRound : Bool) (edit : PathEdit) :
    Option DeltaOp :=
  let removes := ((edit.observed.drop (round * maxRemovesPerOp)).take maxRemovesPerOp).map
    fun dot => (⟨dot, provenanceOf state edit.path dot⟩ : HeadRef)
  let put := (edit.put.filter fun _ => lastRound).map
    fun payload => (⟨payload.version⟩ : DeltaPut)
  if removes.isEmpty && put.isNone then none else some ⟨edit.path, removes, put⟩

section Author

variable (crypto : Crypto) (groupId : FolderGroupId) (signer : Signer) (author : AuthorId)

def roundDelta (state : NativeState) (edits : List PathEdit) (part : Option RecursivePart)
    (round : Nat) (lastRound : Bool) (seq : Nat) (prev : Option DeltaHash) : NativeDelta :=
  NativeDelta.signedBy crypto (signer.sign author) {
    groupId := groupId
    author := author
    seq := seq
    prev := prev
    ops := edits.filterMap (roundOp state round lastRound)
    recursivePart := part.map fun part => { part with partIndex := part.partIndex + round }
    signature := 0 }

/-- Installs a delta this replica authored; whatever keeps it out fails the
whole mutation. -/
def installAuthoredDelta (delta : NativeDelta) (key : VerifyingKey) (admission : Admission) :
    Db (Dot × InstalledHeads) := do
  let (outcome, installed) ←
    installVerifiedDeltaReporting crypto groupId delta key admission
  match outcome with
  | .installed dot => return (dot, installed)
  | .wouldViolateInvariant violation => throw (.invalidInput (.invariant violation))
  | .authorClosed cutoff => throw (.invalidInput (.authorClosed cutoff))
  | .closureFork seq => throw (.invalidInput (.closureFork seq))
  | .groupFrozen => throw .groupFrozen

/-- Signs and installs the rest of the chain, `left` rounds from `round` on. -/
def authorRounds (state : NativeState) (edits : List PathEdit) (part : Option RecursivePart) :
    Nat → Nat → Nat → Option DeltaHash → Db (List NativeDelta)
  | 0, _, _, _ => return []
  | left + 1, round, seq, prev => do
      let delta := roundDelta crypto groupId signer author state edits part round (left = 0) seq prev
      let _ ← installAuthoredDelta crypto groupId delta (signer.keyOf author) .local_
      if left = 0 then
        return [delta]
      else
        match AuthorSeq.checkedNext seq with
        | none => throw (.invalidInput (.lastSequence author))
        | some next =>
          let rest ← authorRounds state edits part left (round + 1) next
            (some (delta.deltaHash crypto))
          return delta :: rest

/-- Signs and installs one mutation of `author` against the heads in `state`,
giving the deltas it took. -/
def authorAndInstall (state : NativeState) (edits : List PathEdit)
    (part : Option RecursivePart) : Db (List NativeDelta) := do
  if edits.isEmpty then
    return []
  else
    match mergeEdits edits with
    | .error failure => throw failure
    | .ok merged =>
      match state.checkEdits author merged with
      | .error (.selfHeadBound path) => throw (.ownBucketOverCap path (maxSelfHeads + 1))
      | _ =>
        let current := (← get).frontier[author]?
        match current.elim (some AuthorSeq.first) fun entry =>
            AuthorSeq.checkedNext entry.seq with
        | none => throw (.invalidInput (.lastSequence author))
        | some seq =>
          authorRounds crypto groupId signer author state merged part
            (chainRounds merged) 0 seq (current.map NativeAuthorFrontierEntry.tip)

end Author

/-! ## What is named, and what is installed -/

theorem mem_observed_of_roundOp {state : NativeState} {round : Nat} {lastRound : Bool}
    {edit : PathEdit} {op : DeltaOp} (does : roundOp state round lastRound edit = some op)
    {removal : HeadRef} (member : removal ∈ op.removes) : removal.dot ∈ edit.observed := by
  unfold roundOp at does
  dsimp only at does
  split at does
  · cases does
  · cases does
    rcases mem_map.mp member with ⟨dot, inChunk, rfl⟩
    exact mem_of_mem_drop (mem_of_mem_take inChunk)

theorem mem_observed_of_roundDelta {crypto : Crypto} {groupId : FolderGroupId} {signer : Signer}
    {author : AuthorId} {state : NativeState} {edits : List PathEdit}
    {part : Option RecursivePart} {round : Nat} {lastRound : Bool} {seq : Nat}
    {prev : Option DeltaHash} {dot : Dot}
    (named : dot ∈ (roundDelta crypto groupId signer author state edits part round lastRound seq
      prev).namedDots) :
    ∃ edit, edit ∈ edits ∧ dot ∈ edit.observed := by
  rcases mem_flatMap.mp named with ⟨op, inOps, inOp⟩
  rcases mem_filterMap.mp inOps with ⟨edit, member, does⟩
  rcases mem_map.mp inOp with ⟨removal, inRemoves, rfl⟩
  exact ⟨edit, member, mem_observed_of_roundOp does inRemoves⟩

/-- A chain that goes through installs its first round; it ends there or goes on
from the next sequence. -/
theorem authorRounds_succ_ok {crypto : Crypto} {groupId : FolderGroupId} {signer : Signer}
    {author : AuthorId} {state : NativeState} {edits : List PathEdit}
    {part : Option RecursivePart} {left round seq : Nat} {prev : Option DeltaHash}
    {deltas : List NativeDelta} {store after : Store}
    (ran : authorRounds crypto groupId signer author state edits part (left + 1) round seq prev
      store = .ok deltas after) :
    ∃ delta, delta = roundDelta crypto groupId signer author state edits part round (left = 0) seq
        prev ∧
      ∃ result middle, installAuthoredDelta crypto groupId delta (signer.keyOf author) .local_
          store = .ok result middle ∧
        ∃ rest, deltas = delta :: rest ∧
          ((left = 0 ∧ rest = [] ∧ after = middle) ∨ (left ≠ 0 ∧ ∃ next,
            authorRounds crypto groupId signer author state edits part left (round + 1) next
              (some (delta.deltaHash crypto)) middle = .ok rest after)) := by
  unfold authorRounds at ran
  rcases bind_eq_ok_iff.mp ran with ⟨result, middle, installed, continued⟩
  refine ⟨_, rfl, result, middle, installed, ?_⟩
  by_cases last : left = 0
  · rw [if_pos last] at continued
    cases continued
    exact ⟨[], rfl, Or.inl ⟨last, rfl, rfl⟩⟩
  · rw [if_neg last] at continued
    cases next : AuthorSeq.checkedNext seq with
    | none =>
      simp only [next] at continued
      cases continued
    | some seq =>
      simp only [next] at continued
      rcases bind_eq_ok_iff.mp continued with ⟨rest, final, more, finished⟩
      cases finished
      exact ⟨rest, rfl, Or.inr ⟨last, seq, more⟩⟩

section Installed

variable {crypto : Crypto} {groupId : FolderGroupId} {delta : NativeDelta} {key : VerifyingKey}
  {store after : Store}

theorem installAuthoredDelta_ok {admission : Admission} {result : Dot × InstalledHeads}
    (sound : store.Sound crypto) (decodes : delta.decodable = true)
    (agrees : store.conflictingPartCount delta = none)
    (ran : installAuthoredDelta crypto groupId delta key admission store = .ok result after) :
    delta.verifySignature crypto key = true ∧ delta.groupId = groupId ∧
      delta.RemovalsDistinct ∧ Installs crypto delta store after := by
  rcases bind_eq_ok_iff.mp ran with ⟨⟨outcome, heads⟩, middle, reported, finished⟩
  have unfrozen : ∀ admission, checkFreeze store groupId delta.author delta.seq admission =
      .ok .open_ := by
    intro admission
    rw [checkFreeze, sound.quiet.journal]
  -- Without a journal it does not matter how the delta reaches the install.
  have asRemote : installVerifiedDeltaInner crypto groupId delta key store =
      .ok outcome middle := by
    rw [installVerifiedDeltaInner, bind_apply]
    have same : installVerifiedDeltaReporting crypto groupId delta key .remote store =
        installVerifiedDeltaReporting crypto groupId delta key admission store := by
      simp only [installVerifiedDeltaReporting, bind_apply, get_apply,
        unfrozen]
    rw [same, reported]
    rfl
  have signed : delta.verifySignature crypto key = true := by
    rw [← Bool.not_eq_false]
    intro unsigned
    simp [installVerifiedDeltaReporting, bind_apply, unsigned] at reported
  have sameGroup : delta.groupId = groupId := by
    by_contra other
    simp [installVerifiedDeltaReporting, bind_apply, signed, other] at reported
  have notClosed := sound.quiet.closedVerdict crypto delta
  have chain : checkChainAdvance store.frontier[delta.author]? delta.prev delta.seq = .ok () := by
    cases advance : checkChainAdvance store.frontier[delta.author]? delta.prev delta.seq with
    | ok passed => rfl
    | error failure =>
      simp [installVerifiedDeltaReporting, bind_apply, signed, sameGroup, unfrozen,
        notClosed, advance] at reported
  have paths := NativeDelta.paths_nodup decodes
  have distinct : delta.RemovalsDistinct := by
    by_contra repeated
    rcases installVerifiedDeltaInner_of_repeated paths signed sameGroup (unfrozen .remote)
      notClosed chain repeated with ⟨failure, failed⟩
    rw [asRemote] at failed
    cases failed
  refine ⟨signed, sameGroup, distinct, ?_⟩
  rcases installVerifiedDeltaInner_of_distinct paths signed sameGroup (unfrozen .remote) notClosed
      chain distinct (sound.consistent.unlogged_of_chain chain) agrees with
    ⟨installed, installs, isInstalled, _⟩ | ⟨violation, refused, _⟩
  · rw [asRemote] at installs
    cases installs
    cases finished
    exact isInstalled
  · rw [asRemote] at refused
    cases refused
    cases finished

end Installed

end Yadorilink
