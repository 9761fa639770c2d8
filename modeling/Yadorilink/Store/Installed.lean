import Yadorilink.Store.Rows

/-! What installing a delta does to the rows of a group in which no author is
closed and nothing is frozen: when it goes through, what it leaves, and which
of its checks can still fail. -/

namespace Yadorilink

open Std Transaction ExtTreeMap NativeState NativeDelta

/-! ## Groups without closures or freeze -/

/-- No author is closed and no rebootstrap freezes the group. -/
structure Store.Quiet (store : Store) : Prop where
  closures : store.closures = []
  closed : store.closed = ∅
  journal : store.journal = none

namespace Store.Quiet

variable {store : Store} (quiet : store.Quiet)

include quiet

theorem effectiveClosedCutoff (author : AuthorId) : store.effectiveClosedCutoff author = none := by
  simp [Store.effectiveClosedCutoff, Store.closureCutoffs, quiet.closures, quiet.closed, strictest]

theorem closedVerdict (crypto : Crypto) (delta : NativeDelta) :
    store.closedVerdict crypto delta = .open_ := by
  rw [Store.closedVerdict, quiet.effectiveClosedCutoff]

theorem beyondCutoff (author : AuthorId) (seq : Nat) : store.beyondCutoff author seq = none := by
  rw [Store.beyondCutoff, quiet.effectiveClosedCutoff]
  rfl

theorem checkFreeze (groupId : FolderGroupId) (author : AuthorId) (seq : Nat)
    (admission : Admission) : checkFreeze store groupId author seq admission = .ok .open_ := by
  rw [Yadorilink.checkFreeze, quiet.journal]

end Store.Quiet

/-! ## The delta's ops by path -/

section RemoteOps

variable (crypto : Crypto) (delta : NativeDelta)

def NativeDelta.remoteOp (op : DeltaOp) : RemoteOp :=
  ⟨op.path, op.removes, op.put.map fun put => ⟨put.version, delta.deltaHash crypto⟩⟩

/-- What an op makes of the ops collected before it for its path. -/
private def mergedOp (hash : DeltaHash) (op : DeltaOp) (current : Option RemoteOp) :
    Option RemoteOp :=
  some ⟨op.path, (current.map RemoteOp.removes).getD [] ++ op.removes,
    op.put.map fun put => ⟨put.version, hash⟩⟩

private theorem getElem?_mergeOp (hash : DeltaHash) (merged : ExtTreeMap SyncPath RemoteOp)
    (op : DeltaOp) (path : SyncPath) :
    (mergeOp hash merged op)[path]? =
      if op.path = path then mergedOp hash op merged[path]? else merged[path]? := by
  rw [mergeOp, OrderedMap.getElem?_insert_eq]
  split
  · rename_i same
    subst same
    rfl
  · rfl

private theorem path_of_mergedOps (hash : DeltaHash) (ops : List DeltaOp) {path : SyncPath}
    {op : RemoteOp} (found : (ops.foldl (mergeOp hash) ∅)[path]? = some op) : op.path = path := by
  suffices keeps : ∀ merged : ExtTreeMap SyncPath RemoteOp,
      (∀ (path : SyncPath) (op : RemoteOp), merged[path]? = some op → op.path = path) →
      ∀ (path : SyncPath) (op : RemoteOp),
        (ops.foldl (mergeOp hash) merged)[path]? = some op → op.path = path by
    exact keeps ∅ (fun path op absent => by simp at absent) path op found
  clear found
  induction ops with
  | nil => exact fun merged named => named
  | cons first rest induction =>
    intro merged named
    apply induction
    intro path op lookup
    rw [getElem?_mergeOp] at lookup
    split at lookup
    · rename_i same
      cases lookup
      exact same
    · exact named path op lookup

/-- Whatever is true of each op with any removals is true of the ops as the state applies them. -/
theorem NativeDelta.forall_remoteOps {kept : RemoteOp → Prop} (merges : ∀ op ∈ delta.ops, ∀ removes,
      kept ⟨op.path, removes, op.put.map fun put => ⟨put.version, delta.deltaHash crypto⟩⟩) :
    ∀ op ∈ delta.remoteOps crypto, kept op := by
  have merged : ∀ (ops : List DeltaOp) (merged : ExtTreeMap SyncPath RemoteOp),
      (∀ op ∈ ops, op ∈ delta.ops) →
      (∀ (path : SyncPath) (op : RemoteOp), merged[path]? = some op → kept op) →
      ∀ (path : SyncPath) (op : RemoteOp),
        (ops.foldl (mergeOp (delta.deltaHash crypto)) merged)[path]? = some op → kept op := by
    intro ops
    induction ops with
    | nil => exact fun merged _ holds => holds
    | cons first rest induction =>
      intro merged listed holds
      apply induction _ fun op later => listed op (.tail _ later)
      intro path op lookup
      rw [getElem?_mergeOp] at lookup
      split at lookup
      · cases lookup
        exact merges first (listed first List.mem_cons_self) _
      · exact holds path op lookup
  intro op member
  rcases List.mem_map.mp member with ⟨entry, inMap, rfl⟩
  exact merged delta.ops ∅ (fun _ listed => listed) (fun path op absent => by simp at absent)
    entry.1 entry.2 (mem_toList_iff_getElem?_eq_some.mp inMap)

theorem NativeDelta.remoteOps_paths_nodup : ((delta.remoteOps crypto).map RemoteOp.path).Nodup := by
  have paths : (delta.remoteOps crypto).map RemoteOp.path =
      (delta.ops.foldl (mergeOp (delta.deltaHash crypto)) ∅).keys := by
    rw [remoteOps, List.map_map, ← map_fst_toList_eq_keys]
    apply List.map_congr_left
    intro entry member
    exact path_of_mergedOps _ _ (mem_toList_iff_getElem?_eq_some.mp member)
  rw [paths]
  exact nodup_keys

variable {crypto delta}

theorem NativeDelta.mem_remoteOps_iff (distinct : (delta.ops.map DeltaOp.path).Nodup)
    {applied : RemoteOp} :
    applied ∈ delta.remoteOps crypto ↔ ∃ op, op ∈ delta.ops ∧ applied = delta.remoteOp crypto op := by
  have merged : ∀ op, op ∈ delta.ops →
      (delta.ops.foldl (mergeOp (delta.deltaHash crypto)) ∅)[op.path]? =
        some (delta.remoteOp crypto op) := by
    intro op member
    have lookup := KeyedFold.view_foldl_of_mem
      (fun (merged : ExtTreeMap SyncPath RemoteOp) (path : SyncPath) => merged[path]?)
      DeltaOp.path (mergedOp (delta.deltaHash crypto))
      (getElem?_mergeOp (delta.deltaHash crypto)) ∅ distinct member
    simpa [remoteOp, mergedOp] using lookup
  rw [remoteOps, List.mem_map]
  constructor
  · rintro ⟨entry, inMap, same⟩
    have lookup := mem_toList_iff_getElem?_eq_some.mp inMap
    by_cases listed : entry.1 ∈ delta.ops.map DeltaOp.path
    · rcases List.mem_map.mp listed with ⟨op, member, path⟩
      rw [← path, merged op member] at lookup
      exact ⟨op, member, same ▸ (Option.some.inj lookup).symm⟩
    · have absent := KeyedFold.view_foldl_of_not_mem
        (fun (merged : ExtTreeMap SyncPath RemoteOp) (path : SyncPath) => merged[path]?)
        DeltaOp.path (mergedOp (delta.deltaHash crypto))
        (getElem?_mergeOp (delta.deltaHash crypto)) delta.ops ∅ listed
      rw [lookup, getElem?_empty] at absent
      cases absent
  · rintro ⟨op, member, same⟩
    exact ⟨(op.path, delta.remoteOp crypto op),
      mem_toList_iff_getElem?_eq_some.mpr (merged op member), same.symm⟩

end RemoteOps

/-! ## What an install records beside the heads -/

namespace Store

variable (crypto : Crypto) (delta : NativeDelta) (store : Store)

/-- The parts of recursive operations, with the delta's own. -/
def partsWith : ExtTreeMap OperationKey (ExtTreeMap Nat Nat) :=
  match delta.recursivePart with
  | none => store.parts
  | some part =>
    let key : OperationKey := ⟨delta.author.device, part.operationId⟩
    store.parts.insert key
      (((store.parts[key]?).getD ∅).insertIfNew part.partIndex part.partCount)

def recorded : Store :=
  { store with
    frontier := store.frontier.insert delta.author ⟨delta.seq, delta.deltaHash crypto⟩
    log := store.log.insert delta.dot (delta.deltaHash crypto)
    bodies := if store.bodies.contains delta.dot then store.bodies
      else store.bodies.insert delta.dot ⟨delta.deltaHash crypto, delta⟩
    parts := store.partsWith delta }

/-- The rows after the delta is installed with `heads` for the live heads. -/
def installed (heads : ExtTreeMap HeadKey HeadPayload) : Store :=
  { store with context := store.context.insert delta.author delta.seq, heads := heads }.recorded
    crypto delta

variable {crypto delta store}

private theorem recordDeltaBody_apply (dot : Dot) (row : BodyRow) (store : Store) :
    recordDeltaBody dot row store = .ok () { store with
      bodies := if store.bodies.contains dot then store.bodies else store.bodies.insert dot row } := by
  unfold recordDeltaBody
  by_cases kept : store.bodies.contains dot = true
  · rw [if_pos kept, if_pos kept]
  · rw [if_neg kept, if_neg kept]

private theorem recordRecursivePart_ok (agrees : store.conflictingPartCount delta = none) :
    recordRecursivePart delta store = .ok () { store with parts := store.partsWith delta } := by
  unfold recordRecursivePart partsWith
  cases delta.recursivePart with
  | none => rfl
  | some part => simp only [agrees]

theorem recordInstalledDelta_ok (fresh : store.log[delta.dot]? = none)
    (agrees : store.conflictingPartCount delta = none) :
    recordInstalledDelta crypto delta store = .ok () (store.recorded crypto delta) := by
  have unlogged : store.log.contains delta.dot = false := by
    rw [contains_eq_isSome_getElem?, fresh]
    rfl
  unfold recordInstalledDelta
  simp only [bind_apply, frontierEntryUpsert, recordDeltaLog, unlogged,
    Bool.false_eq_true, if_false, recordDeltaBody_apply]
  -- The parts a delta is checked against are not touched by the writes before.
  exact recordRecursivePart_ok agrees

end Store

/-! ## The heads an install leaves -/

/-- The heads after `delta`: what it lands comes in, and of what was there
everything it does not remove stays. -/
def HeadsAfter (crypto : Crypto) (delta : NativeDelta) (before after :
    ExtTreeMap HeadKey HeadPayload) : Prop :=
  ∀ path dot payload, after[(⟨path, dot⟩ : HeadKey)]? = some payload ↔
    (delta.dot = dot ∧ delta.Puts path payload.version ∧
      payload.provenance = delta.deltaHash crypto) ∨
    (¬(delta.dot = dot ∧ ∃ version, delta.Puts path version) ∧
      before[(⟨path, dot⟩ : HeadKey)]? = some payload ∧
      ¬delta.Removes path ⟨dot, payload.provenance⟩)

section Applied

variable (crypto : Crypto) (delta : NativeDelta) (store : Store)

def touchedPaths : List SyncPath := (delta.remoteOps crypto).map RemoteOp.path

/-- The touched part of the state after the delta's ops. -/
def appliedState : NativeState :=
  let state := store.loadPartialState (touchedPaths crypto delta)
  ⟨state.context.insert delta.author delta.seq,
    (delta.remoteOps crypto).foldl (NativeState.applyOp delta.dot) state.heads⟩

variable {crypto delta store}

theorem receiveVerified_touched
    (checked : NativeState.checkOps [] (delta.remoteOps crypto) = .ok ()) :
    (store.loadPartialState (touchedPaths crypto delta)).receiveVerified delta.author delta.seq
      (delta.remoteOps crypto) = .ok (delta.dot, appliedState crypto delta store) := by
  rw [receiveVerified, checked]
  rfl

theorem mem_touchedPaths_iff (distinct : (delta.ops.map DeltaOp.path).Nodup) {path : SyncPath} :
    path ∈ touchedPaths crypto delta ↔ ∃ op, op ∈ delta.ops ∧ op.path = path := by
  rw [touchedPaths, List.mem_map]
  constructor
  · rintro ⟨applied, member, samePath⟩
    rcases (mem_remoteOps_iff distinct).mp member with ⟨op, inOps, rfl⟩
    exact ⟨op, inOps, samePath⟩
  · rintro ⟨op, inOps, samePath⟩
    exact ⟨delta.remoteOp crypto op,
      (mem_remoteOps_iff distinct).mpr ⟨op, inOps, rfl⟩, samePath⟩

theorem mem_ops_of_mem_touchedPaths {path : SyncPath}
    (touched : path ∈ touchedPaths crypto delta) : ∃ op ∈ delta.ops, op.path = path := by
  by_contra elsewhere
  rw [not_exists] at elsewhere
  have absent : path ∉ delta.ops.map DeltaOp.path := by
    intro named
    rcases List.mem_map.mp named with ⟨op, member, samePath⟩
    exact elsewhere op ⟨member, samePath⟩
  have unmerged : (delta.ops.foldl (mergeOp (delta.deltaHash crypto)) ∅)[path]? = none :=
    (KeyedFold.view_foldl_of_not_mem
      (fun (merged : ExtTreeMap SyncPath RemoteOp) (path : SyncPath) => merged[path]?)
      DeltaOp.path (mergedOp (delta.deltaHash crypto)) (getElem?_mergeOp (delta.deltaHash crypto))
      delta.ops ∅ absent).trans getElem?_empty
  rcases List.mem_map.mp touched with ⟨applied, member, rfl⟩
  rcases List.mem_map.mp member with ⟨entry, inMerged, rfl⟩
  have stored := mem_toList_iff_getElem?_eq_some.mp inMerged
  rw [path_of_mergedOps _ _ stored, stored] at unmerged
  cases unmerged

section

variable (distinct : (delta.ops.map DeltaOp.path).Nodup)

include distinct

private theorem puts_iff {op : DeltaOp}
    (member : op ∈ delta.ops) (version : VersionHash) :
    delta.Puts op.path version ↔ op.put = some ⟨version⟩ := by
  constructor
  · rintro ⟨other, inOps, samePath, put⟩
    have same := List.inj_on_of_nodup_map distinct inOps member samePath
    exact same ▸ put
  · intro put
    exact ⟨op, member, rfl, put⟩

private theorem removes_iff {op : DeltaOp}
    (member : op ∈ delta.ops) (removal : HeadRef) :
    delta.Removes op.path removal ↔ removal ∈ op.removes := by
  constructor
  · rintro ⟨other, inOps, samePath, removes⟩
    have same := List.inj_on_of_nodup_map distinct inOps member samePath
    exact same ▸ removes
  · intro removes
    exact ⟨op, member, rfl, removes⟩

theorem headsAfter_of_touched
    {heads : ExtTreeMap HeadKey HeadPayload}
    (written : ∀ key : HeadKey, heads[key]? = if key.path ∈ touchedPaths crypto delta then
        HeadMap.at_ (appliedState crypto delta store).heads key
      else store.heads[key]?) :
    HeadsAfter crypto delta store.heads heads := by
  intro path dot payload
  rw [written]
  by_cases touched : path ∈ touchedPaths crypto delta
  · rw [if_pos touched]
    rcases (mem_touchedPaths_iff distinct).mp touched with ⟨op, member, rfl⟩
    have applied : delta.remoteOp crypto op ∈ delta.remoteOps crypto :=
      (mem_remoteOps_iff distinct).mpr ⟨op, member, rfl⟩
    have lookup : (appliedState crypto delta store).headAt op.path dot = some payload ↔
        (delta.dot = dot ∧ (delta.remoteOp crypto op).put = some payload) ∨
        (¬(delta.dot = dot ∧ (delta.remoteOp crypto op).put.isSome) ∧
          (store.loadPartialState (touchedPaths crypto delta)).headAt op.path dot = some payload ∧
          ⟨dot, payload.provenance⟩ ∉ op.removes) :=
      headAt_ops_of_mem _ _ delta.dot _ (delta.remoteOps_paths_nodup crypto) applied
    have putIs : (delta.remoteOp crypto op).put = some payload ↔
        delta.Puts op.path payload.version ∧ payload.provenance = delta.deltaHash crypto := by
      rw [puts_iff distinct member]
      rcases payload with ⟨version, provenance⟩
      cases put : op.put with
      | none => simp [remoteOp, put]
      | some landed =>
        rcases landed with ⟨landed⟩
        simp [remoteOp, put, eq_comm]
    have putsSome : (delta.remoteOp crypto op).put.isSome = true ↔
        ∃ version, delta.Puts op.path version := by
      simp only [puts_iff distinct member]
      cases put : op.put with
      | none => simp [remoteOp, put]
      | some landed =>
        rcases landed with ⟨landed⟩
        simp [remoteOp, put]
    rw [removes_iff distinct member, ← putsSome, ← putIs]
    rw [store.headAt_loadPartialState, if_pos touched] at lookup
    exact lookup
  · rw [if_neg touched]
    have untouched : ∀ op, op ∈ delta.ops → op.path ≠ path := fun op member samePath =>
      touched ((mem_touchedPaths_iff distinct).mpr ⟨op, member, samePath⟩)
    have noPut : ∀ version, ¬delta.Puts path version :=
      fun version ⟨op, member, samePath, _⟩ => untouched op member samePath
    have noRemoval : ∀ removal, ¬delta.Removes path removal :=
      fun removal ⟨op, member, samePath, _⟩ => untouched op member samePath
    simp [noPut, noRemoval]

theorem checkOps_remoteOps :
    NativeState.checkOps [] (delta.remoteOps crypto) = .ok () ↔ delta.RemovalsDistinct := by
  rw [checkOps_eq_ok_iff]
  constructor
  · rintro ⟨_, _, removals⟩ op member
    exact removals _ ((mem_remoteOps_iff distinct).mpr ⟨op, member, rfl⟩)
  · intro removals
    refine ⟨delta.remoteOps_paths_nodup crypto, fun _ _ => List.not_mem_nil, ?_⟩
    intro applied member
    rcases (mem_remoteOps_iff distinct).mp member with ⟨op, inOps, rfl⟩
    exact removals op inOps

end

/-! ## Running the install -/

variable (crypto delta store) in
theorem installTouchedHeads_touched : ∃ heads, (∀ key : HeadKey, heads[key]? =
        if key.path ∈ touchedPaths crypto delta then
          HeadMap.at_ (appliedState crypto delta store).heads key
        else store.heads[key]?) ∧
      installTouchedHeads (touchedPaths crypto delta)
          (store.loadPartialState (touchedPaths crypto delta)).heads
          (appliedState crypto delta store).heads store = .ok () { store with heads := heads } := by
  have isBefore : ∀ path, path ∈ touchedPaths crypto delta → ∀ dot : Dot,
      HeadMap.at_ (store.loadPartialState (touchedPaths crypto delta)).heads ⟨path, dot⟩ =
        store.heads[(⟨path, dot⟩ : HeadKey)]? := by
    intro path touched dot
    have lookup := store.headAt_loadPartialState (touchedPaths crypto delta) path dot
    rw [if_pos touched] at lookup
    exact lookup
  rcases installTouchedHeads_ok (delta.remoteOps_paths_nodup crypto)
    (store.loadPartialState (touchedPaths crypto delta)).heads
    (appliedState crypto delta store).heads store isBefore with ⟨heads, wrote, written⟩
  exact ⟨heads, written, wrote⟩

variable (crypto delta store) in
/-- The write of an install: the touched rows, then everything recorded beside
them, and the author is closed if that is where it was cut. -/
theorem writeInstalled_eq : ∃ heads, (∀ key : HeadKey, heads[key]? =
        if key.path ∈ touchedPaths crypto delta then
          HeadMap.at_ (appliedState crypto delta store).heads key
        else store.heads[key]?) ∧
      writeInstalled crypto delta none (touchedPaths crypto delta)
          (store.loadPartialState (touchedPaths crypto delta)).heads
          (appliedState crypto delta store) store =
        (do
          recordInstalledDelta crypto delta
          if (store.effectiveClosedCutoff delta.author).isSome then
            closeStateIfReached delta.author) { store with
          context := store.context.insert delta.author delta.seq, heads := heads } := by
  rcases installTouchedHeads_touched crypto delta store with ⟨heads, written, wrote⟩
  refine ⟨heads, written, ?_⟩
  unfold writeInstalled
  simp only [bind_apply, get_apply, wrote, authorContextUpsert]
  cases recordInstalledDelta crypto delta _ with
  | error failure after => rfl
  | ok value after =>
    cases (store.effectiveClosedCutoff delta.author).isSome with
    | false => rfl
    | true =>
      simp only [if_true, bind_apply]
      cases closeStateIfReached delta.author after with
      | ok closed final => rfl
      | error failure final => rfl

variable (crypto delta store) in
def installEnd : EStateM.Result StoreError Store InstallOutcome :=
  match NativeState.checkOps [] (delta.remoteOps crypto) with
  | .error failure => .error (.invalidInput (.malformed failure)) store
  | .ok () =>
    match (appliedState crypto delta store).checkInvariants with
    | .error violation => .ok (.wouldViolateInvariant violation) store
    | .ok () =>
      match writeInstalled crypto delta none (touchedPaths crypto delta)
          (store.loadPartialState (touchedPaths crypto delta)).heads
          (appliedState crypto delta store) store with
      | .ok () after => .ok (.installed delta.dot) after
      | .error failure after => .error failure after

theorem installVerifiedDeltaInner_eq {groupId : FolderGroupId} {key : VerifyingKey}
    (signed : delta.verifySignature crypto key = true) (sameGroup : delta.groupId = groupId)
    (unfrozen : checkFreeze store groupId delta.author delta.seq .remote = .ok .open_)
    (notClosed : store.closedVerdict crypto delta = .open_)
    (chain : checkChainAdvance store.frontier[delta.author]? delta.prev delta.seq = .ok ()) :
    installVerifiedDeltaInner crypto groupId delta key store = installEnd crypto delta store := by
  unfold installVerifiedDeltaInner installVerifiedDeltaReporting installEnd
  simp only [bind_apply, get_apply, signed, Bool.not_true,
    Bool.false_eq_true, if_false, sameGroup, ne_eq, not_true_eq_false, unfrozen, notClosed, chain,
    applyAndWrite]
  cases checked : checkOps [] (delta.remoteOps crypto) with
  | error failure =>
    rw [receiveVerified_refused checked]
    rfl
  | ok value =>
    have received := @receiveVerified_touched crypto delta store checked
    rw [touchedPaths] at received
    rw [received]
    have sameSeq : delta.dot.seq = delta.seq := rfl
    simp only [sameSeq, not_true_eq_false, if_false]
    cases (appliedState crypto delta store).checkInvariants with
    | error violation => rfl
    | ok passed =>
      simp only [bind_apply, touchedPaths]
      cases writeInstalled crypto delta none ((delta.remoteOps crypto).map RemoteOp.path)
          (store.loadPartialState ((delta.remoteOps crypto).map RemoteOp.path)).heads
          (appliedState crypto delta store) store with
      | ok wrote after => rfl
      | error failure after => rfl

/-- A delta the state takes, on top of a chain it continues. -/
structure Installs (crypto : Crypto) (delta : NativeDelta) (before after : Store) : Prop where
  chain : checkChainAdvance before.frontier[delta.author]? delta.prev delta.seq = .ok ()
  distinct : delta.RemovalsDistinct
  unlogged : before.log[delta.dot]? = none
  written : ∃ heads closed, after = { before.installed crypto delta heads with closed := closed } ∧
    HeadsAfter crypto delta before.heads heads ∧
    (before.effectiveClosedCutoff delta.author = none → closed = before.closed)
  ownBound : ∀ op, op ∈ delta.ops → ∀ author,
    ((after.loadState.dotsAt op.path).countP fun dot => dot.author = author) ≤ maxSelfHeads

private theorem pathHeads_written {written : Store} {path : SyncPath}
    (lookup : ∀ key : HeadKey, written.heads[key]? = if key.path ∈ touchedPaths crypto delta then
        HeadMap.at_ (appliedState crypto delta store).heads key
      else store.heads[key]?) (touched : path ∈ touchedPaths crypto delta) :
    written.loadState.pathHeads path = (appliedState crypto delta store).pathHeads path := by
  apply ext_getElem?
  intro dot
  have atPath := written.headAt_loadState path dot
  rw [lookup, if_pos touched] at atPath
  exact atPath

section Gates

variable {groupId : FolderGroupId} {key : VerifyingKey}
  (paths : (delta.ops.map DeltaOp.path).Nodup)
  (signed : delta.verifySignature crypto key = true) (sameGroup : delta.groupId = groupId)
  (unfrozen : checkFreeze store groupId delta.author delta.seq .remote = .ok .open_)
  (notClosed : store.closedVerdict crypto delta = .open_)
  (chain : checkChainAdvance store.frontier[delta.author]? delta.prev delta.seq = .ok ())

include paths signed sameGroup unfrozen notClosed chain

/-- Past the gates, a delta that names no dot twice is installed or refused
for the invariant, and nothing else happens. -/
theorem installVerifiedDeltaInner_of_distinct (distinct : delta.RemovalsDistinct)
    (unlogged : store.log[delta.dot]? = none)
    (agrees : store.conflictingPartCount delta = none) :
    (∃ after, installVerifiedDeltaInner crypto groupId delta key store =
        .ok (.installed delta.dot) after ∧ Installs crypto delta store after ∧
        (appliedState crypto delta store).checkInvariants = .ok ()) ∨
      ∃ violation, installVerifiedDeltaInner crypto groupId delta key store =
        .ok (.wouldViolateInvariant violation) store ∧
        (appliedState crypto delta store).checkInvariants = .error violation := by
  rw [installVerifiedDeltaInner_eq signed sameGroup unfrozen notClosed chain, installEnd,
    (checkOps_remoteOps paths).mpr distinct]
  simp only
  cases checked : (appliedState crypto delta store).checkInvariants with
  | error violation => exact Or.inr ⟨violation, rfl, rfl⟩
  | ok passed =>
    rcases writeInstalled_eq crypto delta store with ⟨heads, written, wrote⟩
    have recorded : recordInstalledDelta crypto delta { store with
          context := store.context.insert delta.author delta.seq, heads := heads } =
        .ok () (store.installed crypto delta heads) :=
      Store.recordInstalledDelta_ok unlogged agrees
    -- The write ends with the delta recorded and, at most, its author closed.
    have ended : ∃ closed, writeInstalled crypto delta none (touchedPaths crypto delta)
        (store.loadPartialState (touchedPaths crypto delta)).heads
        (appliedState crypto delta store) store =
          .ok () { store.installed crypto delta heads with closed := closed } ∧
        (store.effectiveClosedCutoff delta.author = none → closed = store.closed) := by
      rw [wrote, bind_apply, recorded]
      cases cut : store.effectiveClosedCutoff delta.author with
      | none => exact ⟨store.closed, rfl, fun _ => rfl⟩
      | some cutoff =>
        rcases closeStateIfReached_ok delta.author (store.installed crypto delta heads) with
          ⟨closed, ran, _⟩
        exact ⟨closed, ran, fun absent => by cases absent⟩
    rcases ended with ⟨closed, ran, unclosed⟩
    refine Or.inl ⟨{ store.installed crypto delta heads with closed := closed }, ?_, ?_, rfl⟩
    · rw [ran]
    · refine ⟨chain, distinct, unlogged,
        ⟨heads, closed, rfl, headsAfter_of_touched paths written, unclosed⟩, ?_⟩
      intro op member author
      have touched : op.path ∈ touchedPaths crypto delta :=
        (mem_touchedPaths_iff paths).mpr ⟨op, member, rfl⟩
      have valid := (checkInvariants_eq_ok_iff _).mp checked
      have bound := valid.ownBound op.path author
      have same : (store.installed crypto delta heads).loadState.pathHeads op.path =
        (appliedState crypto delta store).pathHeads op.path := pathHeads_written written touched
      rw [dotsAt, ← same] at bound
      exact bound

theorem installVerifiedDeltaInner_of_repeated (repeated : ¬delta.RemovalsDistinct) :
    ∃ failure, installVerifiedDeltaInner crypto groupId delta key store =
      .error (.invalidInput (.malformed failure)) store := by
  rw [installVerifiedDeltaInner_eq signed sameGroup unfrozen notClosed chain, installEnd]
  cases checked : checkOps [] (delta.remoteOps crypto) with
  | ok passed => exact absurd ((checkOps_remoteOps paths).mp checked) repeated
  | error failure => exact ⟨failure, rfl⟩

end Gates

end Applied

end Yadorilink
