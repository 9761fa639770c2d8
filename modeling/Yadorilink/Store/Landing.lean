import Yadorilink.Store.Reference
import Yadorilink.Store.Sound

/-! When the state after a delta passes the invariant check. In a sound store
only one thing can go wrong: at a path where the delta lands content, too many
heads of its own author are left beside it. -/

namespace Yadorilink

open Std OrderedMap NativeState List NativeDelta

/-- How many heads of the delta's author an op leaves at its path, the one it
lands not counted. -/
def Store.ownHeadsKept (store : Store) (delta : NativeDelta) (op : DeltaOp) : Nat :=
  (op.removes.foldl NativeState.applyRemoval (store.loadState.pathHeads op.path)).keys.countP
    fun dot => dot.author = delta.author

/-- Whether every op that lands content leaves room for it among the heads of
the delta's author. -/
def Store.hasRoomToLand (store : Store) (delta : NativeDelta) : Bool :=
  delta.ops.all fun op => op.put.isNone || store.ownHeadsKept delta op < maxSelfHeads

theorem Store.hasRoomToLand_iff {store : Store} {delta : NativeDelta} :
    store.hasRoomToLand delta = true ↔ ∀ op, op ∈ delta.ops → op.put.isSome = true →
      store.ownHeadsKept delta op < maxSelfHeads := by
  rw [Store.hasRoomToLand, all_eq_true]
  apply forall₂_congr
  intro op _
  cases op.put with
  | none => simp
  | some put => simp

/-! ## Counting heads -/

theorem keys_insert_perm {heads : PathHeads} {dot : Dot} (absent : heads[dot]? = none)
    (payload : HeadPayload) : (heads.insert dot payload).keys.Perm (dot :: heads.keys) := by
  have fresh : dot ∉ heads.keys := by
    intro member
    rcases (mem_keys_iff heads dot).mp member with ⟨found, known⟩
    rw [absent] at known
    cases known
  rw [perm_ext_iff_of_nodup ExtTreeMap.nodup_keys
    (nodup_cons.mpr ⟨fresh, ExtTreeMap.nodup_keys⟩)]
  intro other
  rw [mem_keys_iff, getElem?_insert_eq, mem_cons,
    mem_keys_iff]
  by_cases same : dot = other
  · simp [same]
  · simp [same, Ne.symm same]

theorem countP_keys_removals_le (removes : List HeadRef) (heads : PathHeads)
    (selected : Dot → Bool) :
    (removes.foldl NativeState.applyRemoval heads).keys.countP selected ≤
      heads.keys.countP selected := by
  apply List.Subperm.countP_le
  apply subperm_of_subset ExtTreeMap.nodup_keys
  intro dot member
  rcases (mem_keys_iff _ dot).mp member with ⟨payload, left⟩
  exact (mem_keys_iff _ dot).mpr
    ⟨payload, (getElem?_foldl_applyRemoval_eq_some.mp left).1⟩

/-! ## The check on the state after -/

/-- What is left of the invariant when bodies may be gone: position, context and
log agree, and the heads form a valid state. -/
structure Store.InStep (store : Store) : Prop where
  quiet : store.Quiet
  context : ∀ author : AuthorId, store.context[author]? =
    (store.frontier[author]?).map NativeAuthorFrontierEntry.seq
  logged : ∀ dot : Dot, (∃ hash, store.log[dot]? = some hash) ↔
    1 ≤ dot.seq ∧ dot.seq ≤ positionSeq store.frontier[dot.author]?
  tip : ∀ (author : AuthorId) entry, store.frontier[author]? = some entry →
    store.log[(⟨author, entry.seq⟩ : Dot)]? = some entry.tip
  valid : store.loadState.Valid
  held : ∀ row, row ∈ store.holds → row.delta.decodable = true
  heldDistinct : (store.holds.map fun row => row.delta.dot).Nodup

theorem Store.Sound.inStep {crypto : Crypto} {store : Store} (sound : store.Sound crypto) :
    store.InStep where
  quiet := sound.quiet
  context := sound.context
  logged := sound.logged
  tip := sound.tip
  valid := by
    refine ⟨store.noEmptyPath_loadState, sound.ownBound, ?_⟩
    intro path dot payload live
    rw [store.headAt_loadState] at live
    rcases sound.observed_of_live live with ⟨positive, observed⟩
    exact ⟨by omega, observed⟩
  held := sound.held
  heldDistinct := sound.heldDistinct

theorem Store.InStep.consistent {store : Store} (inStep : store.InStep) : store.Consistent :=
  ⟨fun dot hash logged => ((inStep.logged dot).mp ⟨hash, logged⟩).2, inStep.held,
    inStep.heldDistinct⟩

section Landing

variable {crypto : Crypto} {delta : NativeDelta} {store : Store} (inStep : store.InStep)

include inStep

variable (paths : (delta.ops.map DeltaOp.path).Nodup)
  (chain : checkChainAdvance store.frontier[delta.author]? delta.prev delta.seq = .ok ())

include paths chain

private theorem countP_applied {op : DeltaOp} (member : op ∈ delta.ops) (author : AuthorId) :
    (((appliedFull crypto delta store).dotsAt op.path).countP fun dot => dot.author = author) =
      ((op.removes.foldl NativeState.applyRemoval (store.loadState.pathHeads op.path)).keys.countP
        fun dot => dot.author = author) +
      if op.put.isSome ∧ delta.author = author then 1 else 0 := by
  have inRemote : delta.remoteOp crypto op ∈ delta.remoteOps crypto :=
    (mem_remoteOps_iff paths).mpr ⟨op, member, rfl⟩
  have lookup := getElem?_changeEach_of_mem RemoteOp.path (fun op => op.result delta.dot)
    (delta.remoteOps crypto) store.loadState.heads (delta.remoteOps_paths_nodup crypto) inRemote
  have atPath : (appliedFull crypto delta store).pathHeads op.path =
      (delta.remoteOp crypto op).result delta.dot (store.loadState.pathHeads op.path) := by
    have stored := congrArg (fun found : Option PathHeads => found.getD ∅) lookup
    rw [getD_storedHeads] at stored
    exact stored
  rw [dotsAt, atPath]
  cases lands : op.put with
  | none =>
    simp [RemoteOp.result, remoteOp, lands, landAt]
  | some put =>
    have absent : (op.removes.foldl applyRemoval
        (store.loadState.pathHeads op.path))[delta.dot]? = none := by
      apply Option.eq_none_iff_forall_ne_some.mpr
      intro payload left
      have live := (getElem?_foldl_applyRemoval_eq_some.mp left).1
      exact Store.unobserved_of_chain inStep.context chain
        (inStep.valid.observed op.path delta.dot payload live).2
    have keys := keys_insert_perm absent ⟨put.version, delta.deltaHash crypto⟩
    simp only [RemoteOp.result, remoteOp, lands, landAt, Option.map_some,
      Option.isSome_some, true_and]
    rw [keys.countP_eq, countP_cons]
    by_cases own : delta.author = author
    · simp [dot, own]
    · simp [dot, own]

/-- Past the chain gate the state after the delta passes the check exactly when
there is room for what it lands. -/
theorem checkInvariants_appliedState_iff :
    (appliedState crypto delta store).checkInvariants = .ok () ↔
      store.hasRoomToLand delta = true := by
  have valid := inStep.valid
  have isOk := (checkInvariants_eq_ok_iff _).mpr valid
  rw [checkInvariants_part isOk inStep.context chain, checkInvariants_eq_ok_iff]
  rw [Store.hasRoomToLand_iff]
  constructor
  · intro validAfter op member lands
    have bound := validAfter.ownBound op.path delta.author
    rw [countP_applied inStep paths chain member delta.author, if_pos ⟨lands, rfl⟩] at bound
    exact bound
  · intro room
    refine ⟨?_, ?_, ?_⟩
    · exact noEmptyPath_ops store.loadState delta.dot _
        (delta.remoteOps_paths_nodup crypto) store.noEmptyPath_loadState
    · intro path author
      by_cases touched : ∃ op, op ∈ delta.ops ∧ op.path = path
      · rcases touched with ⟨op, member, rfl⟩
        rw [countP_applied inStep paths chain member author]
        by_cases lands : op.put.isSome ∧ delta.author = author
        · rw [if_pos lands, ← lands.2]
          exact room op member lands.1
        · rw [if_neg lands]
          exact (countP_keys_removals_le op.removes (store.loadState.pathHeads op.path)
            fun dot => dot.author = author).trans (valid.ownBound op.path author)
      · have untouched : path ∉ touchedPaths crypto delta := fun inTouched =>
          touched ((mem_touchedPaths_iff paths).mp inTouched)
        rw [dotsAt, pathHeads, heads_full_untouched untouched]
        exact valid.ownBound path author
    · intro path dot payload live
      have kept : ∀ payload, store.loadState.headAt path dot = some payload →
          dot.seq ≠ 0 ∧ observedBy (appliedFull crypto delta store).context dot = true := by
        intro payload before
        rcases valid.observed path dot payload before with ⟨positive, observed⟩
        exact ⟨positive, observedBy_appliedFull inStep.context chain observed⟩
      by_cases touched : path ∈ touchedPaths crypto delta
      · rcases mem_map.mp touched with ⟨op, inOps, rfl⟩
        rcases (headAt_ops_of_mem store.loadState _ delta.dot _
            (delta.remoteOps_paths_nodup crypto) inOps).mp live with ⟨rfl, _⟩ | ⟨_, before, _⟩
        · have next := (checkChainAdvance_eq_ok_iff.mp chain).1
          refine ⟨?_, ?_⟩
          · simp only [dot]
            omega
          · rw [observedBy_iff, appliedFull]
            exact ⟨delta.seq, by simp [dot], Nat.le_refl _⟩
        · exact kept payload before
      · rw [headAt, pathHeads, heads_full_untouched touched] at live
        exact kept payload live

end Landing

end Yadorilink
