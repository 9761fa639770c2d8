import Yadorilink.Checkpoints.Quarantine

/-! What the quarantine removed over whole runs. The invariant ties each removal to the area and to
the row of its path, and each phase of a call to what the phases before it have made sure of. -/

namespace Yadorilink.Quarantine

open Std Machine ExtTreeMap Function List Option

variable {next : State} {status : QuarantineStatus}

/-! ## The invariant -/

variable {events : List Event}

section Proofs

variable {sha256 : Bytes → Digest} {manifest : Manifest} {known : Set Bytes} {state : State}
  {table : Table} {path : SyncPath} {rest : List (SyncPath × Option Digest)} {call : Call}
  {digest : Digest} {observed : Observed}

/-- With this digest in the row, everything removed from the path is kept. -/
def Covered (sha256 : Bytes → Digest) (manifest : Manifest) (state : State) (path : SyncPath)
    (late : Option Digest) : Prop :=
  ∀ removal ∈ state.removed, removal.1 = path →
    isVersionCopy manifest state.area removal.1 removal.2 = true ∨
      late = some (sha256 removal.2.bytes)

def Matches (sha256 : Bytes → Digest) (observed : Observed) (digest : Digest) : Prop :=
  ∀ content, observe sha256 (.content content) = observed → sha256 content.bytes = digest

def Stored (sha256 : Bytes → Digest) (known : Set Bytes) (area : RecoveryArea) (digest : Digest) :
    Prop :=
  ∃ bytes ∈ known, sha256 bytes = digest ∧ area.late digest = some bytes

def IsCopy (sha256 : Bytes → Digest) (manifest : Manifest) (known : Set Bytes) (state : State)
    (path : SyncPath) (observed : Observed) : Prop :=
  ∀ content, content.bytes ∈ known → observe sha256 (.content content) = observed →
    isVersionCopy manifest state.area path content = true

def PhaseSound (sha256 : Bytes → Digest) (manifest : Manifest) (known : Set Bytes) (state : State)
    (path : SyncPath) (recorded : Option Digest) : Phase → Prop
  | .check => lateOf state.table path = recorded
  | .look => lateOf state.table path = recorded ∧
      copiesVerify sha256 manifest state.area path = true
  | .keepPresent digest => lateOf state.table path = some digest
  | .readFile observed digest => Covered sha256 manifest state path (some digest) ∧
      Matches sha256 observed digest
  | .keep observed digest bytes => Covered sha256 manifest state path (some digest) ∧
      Matches sha256 observed digest ∧ bytes ∈ known ∧ sha256 bytes = digest
  | .reference observed digest => Covered sha256 manifest state path (some digest) ∧
      Matches sha256 observed digest ∧ Stored sha256 known state.area digest
  | .remove observed status =>
    status = .removed ∧ Covered sha256 manifest state path none ∧
        IsCopy sha256 manifest known state path observed ∨
      ∃ digest, status = .removedLateEdit digest ∧ lateOf state.table path = some digest ∧
        Matches sha256 observed digest ∧ Stored sha256 known state.area digest
  | .record status => Covered sha256 manifest state path (statusRow status).lateSha256

/-- The rows a call has still to come to are as they were when it began. -/
structure RestSound (table : Table) (rest : List (SyncPath × Option Digest)) : Prop where
  distinct : (rest.map Prod.fst).Nodup
  rows : ∀ item ∈ rest, item.1 ∈ table ∧ lateOf table item.1 = item.2

structure CallSound (sha256 : Bytes → Digest) (manifest : Manifest) (known : Set Bytes)
    (state : State) (call : Call) : Prop where
  listed : call.path ∈ state.table
  apart : call.path ∉ call.rest.map Prod.fst
  rest : RestSound state.table call.rest
  phase : PhaseSound sha256 manifest known state call.path call.recorded call.phase

/-- Everything removed is a version copy or in the area, under the digest its row references. -/
structure Sound (sha256 : Bytes → Digest) (manifest : Manifest) (known : Set Bytes)
    (state : State) : Prop where
  rootKnown : ∀ path content, state.root path = .content content → content.bytes ∈ known
  areaKnown : ∀ version bytes, state.area.versions version = some bytes → bytes ∈ known
  removedKnown : ∀ removal ∈ state.removed, removal.2.bytes ∈ known
  rows : ∀ path, Covered sha256 manifest state path (lateOf state.table path)
  late : ∀ removal ∈ state.removed, isVersionCopy manifest state.area removal.1 removal.2 = true ∨
      state.area.late (sha256 removal.2.bytes) = some removal.2.bytes
  call : ∀ call, state.call = some call → CallSound sha256 manifest known state call

theorem Sound.reachable (sound : Sound sha256 manifest known state) :
    Reachable sha256 manifest state := by
  intro removal member
  rcases sound.rows removal.1 removal member rfl with copy | referenced
  · exact .inl copy
  · rcases sound.late removal member with copy | stored
    · exact .inl copy
    · exact .inr ⟨referenced, stored⟩

/-! ## Rows -/

theorem mem_updateRow {other : SyncPath} {row : Row} :
    other ∈ updateRow table path row ↔ other ∈ table := by
  rw [updateRow]
  split
  · rename_i listed
    rw [mem_insert, Std.compare_eq_iff_eq]
    constructor
    · rintro (rfl | before)
      · exact listed
      · exact before
    · exact .inr
  · rfl

theorem lateOf_updateRow_self (listed : path ∈ table) (row : Row) :
    lateOf (updateRow table path row) path = row.lateSha256 := by
  rw [updateRow, if_pos listed, lateOf, OrderedMap.getElem?_insert_eq, if_pos rfl]
  rfl

theorem lateOf_updateRow_of_ne {other : SyncPath} (apart : path ≠ other) (row : Row) :
    lateOf (updateRow table path row) other = lateOf table other := by
  rw [updateRow]
  split
  · rw [lateOf, OrderedMap.getElem?_insert_eq, if_neg apart]
    rfl
  · rfl

theorem RestSound.updateRow (sound : RestSound table rest) (apart : path ∉ rest.map Prod.fst)
    (row : Row) : RestSound (updateRow table path row) rest := by
  refine ⟨sound.distinct, fun item member => ⟨mem_updateRow.mpr (sound.rows item member).1, ?_⟩⟩
  have other : path ≠ item.1 := by
    rintro rfl
    exact apart (mem_map_of_mem member)
  rw [lateOf_updateRow_of_ne other]
  exact (sound.rows item member).2

theorem restSound_pendingRows (table : Table) : RestSound table (pendingRows table) := by
  constructor
  · have keys : ((pendingRows table).map Prod.fst).Sublist (table.toList.map Prod.fst) := by
      rw [pendingRows]
      induction table.toList with
      | nil => exact .slnil
      | cons entry entries induction =>
        rw [filterMap_cons, map_cons]
        split
        · exact induction.cons _
        · rename_i taken
          split at taken
          · cases taken
            exact induction.cons_cons _
          · cases taken
    apply keys.nodup
    rw [map_fst_toList_eq_keys]
    exact nodup_keys
  · intro item member
    rcases mem_filterMap.mp member with ⟨entry, listed, taken⟩
    split at taken
    · cases taken
      have held := mem_toList_iff_getElem?_eq_some.mp listed
      refine ⟨mem_iff_isSome_getElem?.mpr (isSome_of_eq_some held), ?_⟩
      rw [lateOf, held]
      rfl
    · cases taken

/-! ## One step -/

theorem PhaseSound.frame {recorded : Option Digest} {phase : Phase}
    (sound : PhaseSound sha256 manifest known state path recorded phase)
    (area : next.area = state.area) (table : next.table = state.table)
    (removed : next.removed = state.removed) :
    PhaseSound sha256 manifest known next path recorded phase := by
  rcases state with ⟨root, stateArea, stateTable, call, stateRemoved⟩
  rcases next with ⟨nextRoot, nextArea, nextTable, nextCall, nextRemoved⟩
  cases area
  cases table
  cases removed
  cases phase <;> exact sound

theorem CallSound.frame (sound : CallSound sha256 manifest known state call)
    (area : next.area = state.area) (table : next.table = state.table)
    (removed : next.removed = state.removed) : CallSound sha256 manifest known next call where
  listed := table ▸ sound.listed
  apart := sound.apart
  rest := table ▸ sound.rest
  phase := sound.phase.frame area table removed

theorem callSound_of_nextCall (sound : RestSound state.table rest)
    (next : nextCall rest = some call) : CallSound sha256 manifest known state call := by
  cases rest with
  | nil => cases next
  | cons item rest =>
    cases next
    have here := sound.rows item (.head _)
    have distinct := nodup_cons.mp sound.distinct
    refine ⟨here.1, distinct.1, ⟨distinct.2, fun other member => ?_⟩, here.2⟩
    exact sound.rows other (.tail item member)

section

variable (sound : Sound sha256 manifest known state)

include sound

theorem Sound.stopped :
    Sound sha256 manifest known state.stopped :=
  ⟨sound.rootKnown, sound.areaKnown, sound.removedKnown, sound.rows, sound.late,
    fun call running => by cases running⟩

theorem Sound.inPhase {phase : Phase}
    (calls : CallSound sha256 manifest known state call)
    (next : PhaseSound sha256 manifest known state call.path call.recorded phase) :
    Sound sha256 manifest known (state.inPhase call phase) := by
  refine ⟨sound.rootKnown, sound.areaKnown, sound.removedKnown, sound.rows, sound.late,
    fun other running => ?_⟩
  cases running
  exact ⟨calls.listed, calls.apart, calls.rest, next.frame rfl rfl rfl⟩

theorem Sound.edit (path : SyncPath)
    {standing : Standing}
    (isKnown : ∀ content, standing = .content content → content.bytes ∈ known) :
    Sound sha256 manifest known
      { state with root := Function.update state.root path standing } where
  rootKnown := by
    intro other content stands
    change Function.update state.root path standing other = .content content at stands
    by_cases here : other = path
    · rw [here, update_self] at stands
      exact isKnown content stands
    · rw [update_of_ne here] at stands
      exact sound.rootKnown other content stands
  areaKnown := sound.areaKnown
  removedKnown := sound.removedKnown
  rows := sound.rows
  late := sound.late
  call := fun call running => (sound.call call running).frame rfl rfl rfl

/-- The row's digest covers what was removed; so does the digest of what stands at the path, where
the call finds the edit that has left again or nothing has left. -/
theorem Sound.covered_standing
    (running : state.call = some call) (looks : call.phase = .look)
    (row : lateOf state.table call.path = call.recorded)
    (finds : findsSame sha256 manifest state .advance = true)
    (stands : state.root call.path ≠ .absent) :
    Covered sha256 manifest state call.path (standingDigest sha256 (state.root call.path)) := by
  intro removal member here
  rcases sound.rows call.path removal member here with copy | referenced
  · exact .inl copy
  · rw [row] at referenced
    cases copy : isVersionCopy manifest state.area removal.1 removal.2 with
    | true => exact .inl rfl
    | false =>
      right
      have left : hasLeft sha256 manifest state call.path (sha256 removal.2.bytes) = true := by
        apply any_eq_true.mpr
        refine ⟨removal, member, ?_⟩
        rw [← here, copy, beq_self_eq_true, beq_self_eq_true]
        rfl
      rw [findsSame, running, all_some, looks, referenced, all_some, left] at finds
      simp only [bne_self_eq_false, Bool.not_true, Bool.false_or, Bool.or_eq_true, beq_iff_eq]
        at finds
      exact finds.resolve_left stands

theorem Sound.covered_none
    (row : lateOf state.table path = none) : Covered sha256 manifest state path none := by
  have rows := sound.rows path
  rw [row] at rows
  exact rows

theorem Sound.isCopy_file
    (distinct : Set.InjOn sha256 known) {size : Nat}
    (verified : copiesVerify sha256 manifest state.area path = true)
    (named : ((versionsAt manifest path).any fun version =>
      version.hasBytes && version.sha256 == digest) = true) :
    IsCopy sha256 manifest known state path (.file size digest) := by
  intro content isKnown same
  cases content with
  | symlink target => cases same
  | file bytes =>
    cases same
    rcases any_eq_true.mp named with ⟨version, listed, facts⟩
    rw [Bool.and_eq_true, beq_iff_eq] at facts
    have readable := all_eq_true.mp verified version
      (mem_filter.mpr ⟨listed, facts.1⟩)
    rcases (any_eq_true _ _).mp readable with ⟨copy, held, hashes⟩
    have equal : copy = bytes :=
      distinct (sound.areaKnown _ _ held) isKnown ((eq_of_beq hashes).trans facts.2)
    apply any_eq_true.mpr
    refine ⟨version, listed, ?_⟩
    change (version.hasBytes && state.area.versions version.version == some bytes) = true
    rw [facts.1, held, equal, beq_self_eq_true]
    rfl

end

theorem isCopy_symlink {target : Bytes} (named : ((versionsAt manifest path).any fun version =>
      version.symlinkTarget == some target) = true) :
    IsCopy sha256 manifest known state path (.symlink target) := by
  intro content isKnown same
  cases content with
  | file bytes => cases same
  | symlink target =>
    cases same
    exact named

theorem matches_file (size : Nat) (digest : Digest) :
    Matches sha256 (.file size digest) digest := by
  intro content same
  cases content with
  | symlink target => cases same
  | file bytes =>
    cases same
    rfl

theorem matches_symlink (target : Bytes) : Matches sha256 (.symlink target) (sha256 target) := by
  intro content same
  cases content with
  | file bytes => cases same
  | symlink target =>
    cases same
    rfl

section

variable (sound : Sound sha256 manifest known state)

include sound

theorem Sound.look (distinct : Set.InjOn sha256 known)
    (running : state.call = some call) (looks : call.phase = .look)
    (finds : findsSame sha256 manifest state .advance = true) :
    PhaseSound sha256 manifest known state call.path call.recorded
      (decidePhase sha256 manifest call.path call.recorded
        (observe sha256 (state.root call.path))) := by
  have phase := (sound.call call running).phase
  rw [looks] at phase
  rcases phase with ⟨row, verified⟩
  have standing := sound.covered_standing running looks row finds
  cases stands : state.root call.path with
  | absent =>
    cases recorded : call.recorded with
    | some digest => exact row.trans recorded
    | none => exact sound.covered_none (row.trans recorded)
  | directory =>
    rw [stands] at standing
    exact standing fun same => by cases same
  | other =>
    rw [stands] at standing
    exact standing fun same => by cases same
  | content content =>
    rw [stands] at standing
    have covered := standing fun same => by cases same
    cases content with
    | file bytes =>
      rw [observe, decidePhase]
      split
      · rename_i copy
        rw [Bool.and_eq_true, isNone_iff_eq_none] at copy
        exact .inl ⟨rfl, sound.covered_none (row.trans copy.1),
          sound.isCopy_file distinct verified copy.2⟩
      · exact ⟨covered, matches_file _ _⟩
    | symlink target =>
      rw [observe, decidePhase]
      split
      · rename_i copy
        rw [Bool.and_eq_true, isNone_iff_eq_none] at copy
        exact .inl ⟨rfl, sound.covered_none (row.trans copy.1), isCopy_symlink copy.2⟩
      · exact ⟨covered, matches_symlink target, sound.rootKnown _ _ stands, rfl⟩

theorem Sound.keep (distinct : Set.InjOn sha256 known)
    (running : state.call = some call) {bytes : Bytes}
    (keeps : call.phase = .keep observed digest bytes) :
    Sound sha256 manifest known { state.inPhase call (.reference observed digest) with
        area := { state.area with late := Function.update state.area.late digest (some bytes) } } := by
  have calls := sound.call call running
  have phase := calls.phase
  rw [keeps] at phase
  rcases phase with ⟨covered, same, isKnown, hashes⟩
  refine ⟨sound.rootKnown, sound.areaKnown, sound.removedKnown, sound.rows, ?_, ?_⟩
  · intro removal member
    rcases sound.late removal member with copy | stored
    · exact .inl copy
    · right
      change Function.update state.area.late digest (some bytes) (sha256 removal.2.bytes) = _
      by_cases here : sha256 removal.2.bytes = digest
      · rw [here, update_self]
        exact congrArg some
          (distinct isKnown (sound.removedKnown removal member) (hashes.trans here.symm))
      · rw [update_of_ne here]
        exact stored
  · intro other runs
    cases runs
    exact ⟨calls.listed, calls.apart, calls.rest, covered, same, bytes, isKnown, hashes,
      update_self ..⟩

theorem Sound.rows_updateRow
    (listed : path ∈ state.table) {row : Row}
    (covered : Covered sha256 manifest state path row.lateSha256) (other : SyncPath) :
    Covered sha256 manifest state other (lateOf (updateRow state.table path row) other) := by
  by_cases here : path = other
  · subst here
    rw [lateOf_updateRow_self listed]
    exact covered
  · rw [lateOf_updateRow_of_ne here]
    exact sound.rows other

theorem Sound.reference
    (running : state.call = some call) (refers : call.phase = .reference observed digest) :
    Sound sha256 manifest known
      { state.inPhase call (.remove observed (.removedLateEdit digest)) with
        table := updateRow state.table call.path ⟨.removing, some digest⟩ } := by
  have calls := sound.call call running
  have phase := calls.phase
  rw [refers] at phase
  rcases phase with ⟨covered, same, stored⟩
  refine ⟨sound.rootKnown, sound.areaKnown, sound.removedKnown,
    sound.rows_updateRow calls.listed covered, sound.late, fun other runs => ?_⟩
  cases runs
  refine ⟨mem_updateRow.mpr calls.listed, calls.apart, calls.rest.updateRow calls.apart _, ?_⟩
  exact .inr ⟨digest, rfl, lateOf_updateRow_self calls.listed _, same, stored⟩

theorem Sound.record {call : Call}
    (running : state.call = some call)
    (records : call.phase = .record status) :
    Sound sha256 manifest known { state with
        table := updateRow state.table call.path (statusRow status)
        call := nextCall call.rest } := by
  have calls := sound.call call running
  have phase := calls.phase
  rw [records] at phase
  refine ⟨sound.rootKnown, sound.areaKnown, sound.removedKnown,
    sound.rows_updateRow calls.listed phase, sound.late, fun next runs => ?_⟩
  exact callSound_of_nextCall (calls.rest.updateRow calls.apart _) runs

/-- What is taken from the root is kept: it is a version copy, or the row references it and the area
holds it. -/
theorem Sound.taken {call : Call}
    (running : state.call = some call) {content : Content}
    (stands : state.root call.path = .content content)
    (kept : isVersionCopy manifest state.area call.path content = true ∨
      IsLateCopy sha256 state call.path content ∧
        (statusRow status).lateSha256 = some (sha256 content.bytes))
    (covered : Covered sha256 manifest state call.path (statusRow status).lateSha256) :
    Sound sha256 manifest known { state.inPhase call (.record status) with
        root := Function.update state.root call.path .absent
        removed := (call.path, content) :: state.removed } where
  rootKnown := by
    intro path other found
    change Function.update state.root call.path .absent path = .content other at found
    by_cases here : path = call.path
    · rw [here, update_self] at found
      cases found
    · rw [update_of_ne here] at found
      exact sound.rootKnown path other found
  areaKnown := sound.areaKnown
  removedKnown := by
    exact forall_mem_cons.mpr ⟨sound.rootKnown call.path content stands, sound.removedKnown⟩
  rows := by
    intro path removal member here
    rcases mem_cons.mp member with rfl | before
    · cases here
      exact kept.imp id fun late => late.1.1
    · exact sound.rows path removal before here
  late := by
    exact forall_mem_cons.mpr ⟨kept.imp id fun late => late.1.2, sound.late⟩
  call := by
    intro next runs
    cases runs
    have calls := sound.call call running
    refine ⟨calls.listed, calls.apart, calls.rest, fun removal member here => ?_⟩
    rcases mem_cons.mp member with rfl | before
    · exact kept.imp id And.right
    · exact covered removal before here

theorem Sound.remove
    (distinct : Set.InjOn sha256 known) {call : Call} (running : state.call = some call)
    {observed : Observed}
    (removes : call.phase = .remove observed status) :
    Sound sha256 manifest known (state.remove sha256 call observed status) := by
  have calls := sound.call call running
  have phase := calls.phase
  rw [removes] at phase
  have covered : Covered sha256 manifest state call.path (statusRow status).lateSha256 := by
    rcases phase with ⟨rfl, versions, -⟩ | ⟨digest, rfl, row, -⟩
    · exact versions
    · have rows := sound.rows call.path
      rw [row] at rows
      exact rows
  rw [State.remove]
  cases stands : state.root call.path with
  | absent => exact sound.inPhase calls covered
  | directory => exact sound.stopped
  | other => exact sound.stopped
  | content content =>
    dsimp only
    split
    · rename_i same
      apply sound.taken running stands _ covered
      rcases phase with ⟨rfl, -, copy⟩ | ⟨digest, rfl, row, hashes, bytes, isKnown, hashed, held⟩
      · exact .inl (copy content (sound.rootKnown _ _ stands) same)
      · right
        have isDigest := hashes content same
        have equal : bytes = content.bytes :=
          distinct isKnown (sound.rootKnown _ _ stands) (hashed.trans isDigest.symm)
        refine ⟨⟨?_, ?_⟩, ?_⟩
        · rw [row, isDigest]
        · rw [isDigest, held, equal]
        · rw [isDigest]
          rfl
    · exact sound.stopped

theorem Sound.readFile
    (running : state.call = some call) (reads : call.phase = .readFile observed digest) :
    Sound sha256 manifest known (state.readFile sha256 call observed digest) := by
  have calls := sound.call call running
  have phase := calls.phase
  rw [reads] at phase
  rw [State.readFile]
  split
  · rename_i bytes stands
    split
    · rename_i hashes
      exact sound.inPhase calls
        ⟨phase.1, phase.2, sound.rootKnown call.path (.file bytes) stands, hashes⟩
    · exact sound.stopped
  · exact sound.stopped

theorem Sound.advance
    (distinct : Set.InjOn sha256 known) (running : state.call = some call)
    (finds : findsSame sha256 manifest state .advance = true) :
    Sound sha256 manifest known (state.advance sha256 manifest call) := by
  have calls := sound.call call running
  have phase := calls.phase
  rw [State.advance.eq_def]
  cases here : call.phase with
  | check =>
    rw [here] at phase
    dsimp only
    split
    · rename_i verified
      exact sound.inPhase calls ⟨phase, verified⟩
    · exact sound.stopped
  | look => exact sound.inPhase calls (sound.look distinct running here finds)
  | keepPresent digest =>
    rw [here] at phase
    dsimp only
    split
    · apply sound.inPhase calls
      have rows := sound.rows call.path
      rw [show lateOf state.table call.path = some digest from phase] at rows
      exact rows
    · exact sound.stopped
  | readFile observed digest => exact sound.readFile running here
  | keep observed digest bytes => exact sound.keep distinct running here
  | reference observed digest => exact sound.reference running here
  | remove observed status => exact sound.remove distinct running here
  | record status => exact sound.record running here

end

/-! ## Runs -/

/-- The contents of a run: in the root at the start, among the version copies, or put there by the
user. -/
def seen (root : SyncPath → Standing) (area : RecoveryArea) (events : List Event) : Set Bytes :=
  { bytes | (∃ path content, root path = .content content ∧ content.bytes = bytes) ∨
    (∃ version, area.versions version = some bytes) ∨
    ∃ path content, Event.edit path (.content content) ∈ events ∧ content.bytes = bytes }

theorem Sound.step (sound : Sound sha256 manifest known state) (distinct : Set.InjOn sha256 known)
    {event : Event}
    (isKnown : ∀ path content, event = .edit path (.content content) → content.bytes ∈ known)
    (finds : findsSame sha256 manifest state event = true)
    (stepped : state.step sha256 manifest event = some next) : Sound sha256 manifest known next := by
  cases event with
  | edit path standing =>
    cases stepped
    apply sound.edit path
    rintro content rfl
    exact isKnown path content rfl
  | call =>
    rw [State.step] at stepped
    split at stepped
    · cases stepped
      exact ⟨sound.rootKnown, sound.areaKnown, sound.removedKnown, sound.rows, sound.late,
        fun call runs => callSound_of_nextCall (restSound_pendingRows _) runs⟩
    · cases stepped
  | advance =>
    rcases map_eq_some_iff.mp stepped with ⟨call, running, rfl⟩
    exact sound.advance distinct running finds
  | crash =>
    cases stepped
    exact sound.stopped

theorem Sound.run (sound : Sound sha256 manifest known state) (distinct : Set.InjOn sha256 known)
    {last : State} (isKnown : ∀ path content, Event.edit path (.content content) ∈ events →
      content.bytes ∈ known) (finds : Along (State.step sha256 manifest)
      (fun state event => findsSame sha256 manifest state event = true) state events)
    (ran : run (State.step sha256 manifest) state events = some last) :
    Sound sha256 manifest known last := by
  induction events generalizing state with
  | nil =>
    cases ran
    exact sound
  | cons event events induction =>
    rcases run_cons ran with ⟨next, stepped, later⟩
    have here : Sound sha256 manifest known next := by
      apply sound.step distinct _ finds.1 stepped
      rintro path content rfl
      exact isKnown path content (.head _)
    apply induction here _ (finds.2 next stepped) later
    exact fun path content member => isKnown path content (.tail event member)

/-- Where every call that looks at a path whose row references a late edit that has left finds
nothing there or that edit again, everything the quarantine removed stays reachable. -/
theorem removed_edits_reachable (sha256 : Bytes → Digest) (manifest : Manifest)
    (replayable : Nat → Bool) (root : SyncPath → Standing) (area : RecoveryArea)
    (events : List Event) (last : State)
    (distinct : Set.InjOn sha256 (seen root area events))
    (finds : Along (State.step sha256 manifest)
      (fun state event => findsSame sha256 manifest state event = true)
      (State.start manifest replayable root area) events)
    (ran : run (State.step sha256 manifest) (State.start manifest replayable root area) events =
      some last) :
    Reachable sha256 manifest last := by
  have start : Sound sha256 manifest (seen root area events)
      (State.start manifest replayable root area) := by
    refine ⟨?_, ?_, ?_, ?_, ?_, ?_⟩
    · exact fun path content stands => .inl ⟨path, content, stands, rfl⟩
    · exact fun version bytes held => .inr (.inl ⟨version, held⟩)
    · exact fun removal member => absurd member List.not_mem_nil
    · exact fun path removal member => absurd member List.not_mem_nil
    · exact fun removal member => absurd member List.not_mem_nil
    · exact fun call running => by cases running
  apply (start.run distinct _ finds ran).reachable
  exact fun path content member => .inr (.inr ⟨path, content, member, rfl⟩)

end Proofs

/-! ## A late edit, with and without a second save -/

def sampleDigest (bytes : Bytes) : Digest :=
  if bytes = [1] then
    0x4bf5122f344554c53bde2ebb8cd2b7e3d1600ad631c385a5d7cce23c7785459a
  else if bytes = [1, 2] then
    0xa12871fee210fb8619291eaea194581cbd2531e4b23759d225f6806923f63222
  else if bytes = [3] then
    0x084fed08b978af4d7d196a7446a86b58009e636b611db16211b65a9aadff29c5
  else
    0

/-- One change of `notes.txt`, whose copy is in the area. -/
def sampleManifest : Manifest :=
  ⟨[⟨"notes.txt", some ⟨7⟩, 0⟩], [⟨⟨7⟩, true, sampleDigest [1], none⟩]⟩

def sampleArea : RecoveryArea :=
  ⟨fun version => if version = ⟨7⟩ then some [1] else none, fun _ => none⟩

/-- The user has saved `notes.txt` again after the barrier. -/
def sampleRoot (path : SyncPath) : Standing :=
  if path = "notes.txt" then .content (.file [1, 2]) else .absent

def sampleStart : State :=
  State.start sampleManifest (fun _ => false) sampleRoot sampleArea

/-- The edit is kept, referenced and removed; the call ends before it is recorded. -/
def removedNotRecorded : List Event :=
  [.call, .advance, .advance, .advance, .advance, .advance, .advance, .crash]

def resumed : List Event :=
  removedNotRecorded ++ [Event.call, .advance, .advance, .advance, .advance]

/-- The user saves once more before the call is resumed. -/
def resumedAfterSave : List Event :=
  removedNotRecorded ++ Event.edit "notes.txt" (.content (.file [3])) ::
    [Event.call, .advance, .advance, .advance, .advance, .advance, .advance, .advance]

theorem seen_sample {bytes : Bytes}
    (saved : ∀ path content, Event.edit path (.content content) ∈ events →
      content.bytes = [3]) (member : bytes ∈ seen sampleRoot sampleArea events) :
    bytes = [1] ∨ bytes = [1, 2] ∨ bytes = [3] := by
  rcases member with ⟨path, content, stands, rfl⟩ | ⟨version, held⟩ | ⟨path, content, edited, rfl⟩
  · rw [sampleRoot] at stands
    split at stands
    · cases stands
      exact .inr (.inl rfl)
    · cases stands
  · change (if version = ⟨7⟩ then some [1] else none) = some bytes at held
    split at held
    · cases held
      exact .inl rfl
    · cases held
  · exact .inr (.inr (saved path content edited))

theorem sampleDigest_injOn (saved : ∀ path content, Event.edit path (.content content) ∈ events →
      content.bytes = [3]) : Set.InjOn sampleDigest (seen sampleRoot sampleArea events) := by
  intro first firstSeen second secondSeen same
  rcases seen_sample saved firstSeen with rfl | rfl | rfl <;>
    rcases seen_sample saved secondSeen with rfl | rfl | rfl <;>
    first | rfl | exact absurd same (by decide)

theorem resumed_edit_recorded :
    ∃ last, run (State.step sampleDigest sampleManifest) sampleStart resumed = some last ∧
      last.removed = [("notes.txt", .file [1, 2])] ∧
      Reachable sampleDigest sampleManifest last := by
  have facts : (run (State.step sampleDigest sampleManifest) sampleStart resumed).map
      State.removed = some [("notes.txt", .file [1, 2])] := by decide
  rcases Option.map_eq_some_iff.mp facts with ⟨last, ran, removed⟩
  refine ⟨last, ran, removed, ?_⟩
  apply removed_edits_reachable sampleDigest sampleManifest (fun _ => false) sampleRoot sampleArea
    resumed last (sampleDigest_injOn ?_) (by decide) ran
  simp [resumed, removedNotRecorded]

/-- The second save's digest replaces the first one's: the first edit has left the root and no row
records it. -/
theorem second_save_unreferences_first :
    Set.InjOn sampleDigest (seen sampleRoot sampleArea resumedAfterSave) ∧
      ∃ last, run (State.step sampleDigest sampleManifest) sampleStart resumedAfterSave =
          some last ∧
        ¬ Reachable sampleDigest sampleManifest last := by
  refine ⟨sampleDigest_injOn ?_, ?_⟩
  · simp [resumedAfterSave, removedNotRecorded, Content.bytes]
  · have facts : (run (State.step sampleDigest sampleManifest) sampleStart resumedAfterSave).map
        (fun last => (last.removed, lateOf last.table "notes.txt",
          isVersionCopy sampleManifest last.area "notes.txt" (.file [1, 2]))) =
        some ([("notes.txt", .file [3]), ("notes.txt", .file [1, 2])], some (sampleDigest [3]),
          false) := by decide
    rcases Option.map_eq_some_iff.mp facts with ⟨last, ran, shape⟩
    simp only [Prod.mk.injEq] at shape
    rcases shape with ⟨removed, row, notCopy⟩
    refine ⟨last, ran, fun reachable => ?_⟩
    have kept := reachable ("notes.txt", .file [1, 2]) (by rw [removed]; decide)
    rcases kept with copy | late
    · rw [notCopy] at copy
      cases copy
    · have same := row.symm.trans late.1
      exact absurd same (by decide)

end Yadorilink.Quarantine
