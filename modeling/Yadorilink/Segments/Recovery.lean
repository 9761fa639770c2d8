import Yadorilink.Segments.Invariants

/-! What opening the store leaves in the index: a coherent one, whatever files are found, and a
segment number above every one in use. -/

namespace Yadorilink.Segments

open List

variable {hashBlock : Bytes → RawHash} {submitted : List Bytes} {index after : BlockIndex}

theorem le_greatest_of_le {least number : Nat} (numbers : List Nat) (below : number ≤ least) :
    number ≤ greatest least numbers := by
  rw [greatest]
  induction numbers generalizing least with
  | nil => exact below
  | cons first numbers induction =>
    exact induction (Nat.le_trans below (Nat.le_max_left least first))

theorem le_greatest {least number : Nat} {numbers : List Nat} (member : number ∈ numbers) :
    number ≤ greatest least numbers := by
  rw [greatest]
  induction numbers generalizing least with
  | nil => cases member
  | cons first numbers induction =>
    rcases mem_cons.mp member with rfl | later
    · exact le_greatest_of_le numbers (Nat.le_max_right least number)
    · exact induction later

/-! ## The repairs -/

theorem liveIn_filter_segment (segmentId other : Nat) (blocks : List BlockRow) :
    liveIn other (blocks.filter fun block => block.segmentId ≠ segmentId) =
      if other = segmentId then 0 else liveIn other blocks := by
  rw [liveIn, countP_filter]
  split
  · rename_i same
    apply countP_eq_zero.mpr
    intro block _ both
    rw [Bool.and_eq_true, decide_eq_true_eq, decide_eq_true_eq] at both
    exact both.2 (both.1.trans same)
  · rename_i differ
    rw [liveIn]
    apply countP_congr
    intro block _
    rw [Bool.and_eq_true, decide_eq_true_eq, decide_eq_true_eq]
    exact ⟨And.left, fun inside => ⟨inside, fun same => differ (inside.symm.trans same)⟩⟩

theorem Coherent.dropSegmentMappings (coherent : Coherent index) (segmentId : Nat) :
    Coherent (index.dropSegmentMappings segmentId) := by
  apply coherent.update
  · exact fun _ => rfl
  · exact coherent.hashes.filter _
  · intro row _ _
    rw [liveIn_filter_segment, if_pos rfl]
    rfl
  · intro other differ
    rw [liveIn_filter_segment, if_neg differ]
  · intro block member
    rcases mem_filter.mp member with ⟨mapped, kept⟩
    obtain ⟨row, listed, houses⟩ := coherent.housed block mapped
    refine ⟨row, listed, ?_⟩
    split
    · exact houses
    · exact houses

/-- Blocks that no longer fit in their file lose their mapping; the rest stay within the end that
is found again. -/
theorem Coherent.repairSegmentToLength (coherent : Coherent index)
    (framed : ∀ row ∈ index.blocks, recordLen row.payloadLen ≤ row.recordLen)
    (segmentId fileLen : Nat) : Coherent (index.repairSegmentToLength segmentId fileLen) := by
  apply coherent.update
  · exact fun _ => rfl
  · exact coherent.hashes.filter _
  · exact fun _ _ _ => tallyIn_blocks segmentId _
  · intro other differ
    rw [liveIn, countP_filter, liveIn]
    apply countP_congr
    intro block _
    rw [Bool.and_eq_true, decide_eq_true_eq, decide_eq_true_eq]
    constructor
    · exact And.left
    · exact fun inside => ⟨inside, fun both => differ (inside.symm.trans both.1)⟩
  · intro block member
    have mapped := (mem_filter.mp member).1
    obtain ⟨row, listed, houses⟩ := coherent.housed block mapped
    refine ⟨row, listed, ?_⟩
    split
    · rename_i same
      refine ⟨houses.1, houses.2.1, houses.2.2.1, ?_⟩
      have inside : block.segmentId = segmentId := houses.1.symm.trans same
      have ends : block.recordOffset + block.recordLen ∈
          ((index.blocks.filter fun row =>
            ¬(row.segmentId = segmentId ∧ fileLen < row.recordOffset + row.recordLen)).filter
              fun row => row.segmentId = segmentId).map
            fun row => row.recordOffset + row.recordLen :=
        mem_map.mpr
          ⟨block, mem_filter.mpr ⟨member, decide_eq_true inside⟩, rfl⟩
      have some : ¬(((index.blocks.filter fun row =>
            ¬(row.segmentId = segmentId ∧ fileLen < row.recordOffset + row.recordLen)).filter
              fun row => row.segmentId = segmentId).map
            fun row => row.recordOffset + row.recordLen).isEmpty = true := by
        intro empty
        rw [isEmpty_iff.mp empty] at ends
        cases ends
      have bound := Nat.add_le_add_left (framed block mapped) block.recordOffset
      dsimp only
      rw [if_neg some]
      exact Nat.le_trans bound (le_greatest ends)
    · exact houses

/-! ## Whole recoveries -/

/-- What recovery may do to the index: drop mappings and rows, and change what is left of them. -/
structure Recovers (hashBlock : Bytes → RawHash) (submitted : List Bytes)
    (before after : BlockIndex) : Prop where
  sound : IndexSound hashBlock submitted after
  rows : ∀ segmentId state durableEnd, after.Row segmentId state durableEnd →
    ∃ earlier stop, before.Row segmentId earlier stop

theorem Recovers.trans {middle : BlockIndex} (first : Recovers hashBlock submitted index middle)
    (second : Recovers hashBlock submitted middle after) :
    Recovers hashBlock submitted index after where
  sound := second.sound
  rows := by
    intro segmentId state durableEnd row
    obtain ⟨earlier, stop, there⟩ := second.rows _ _ _ row
    exact first.rows _ _ _ there

section

variable (sound : IndexSound hashBlock submitted index)

include sound

theorem IndexSound.forgetSegment
    (segmentId : Nat) : Recovers hashBlock submitted index (index.forgetSegment segmentId) where
  sound := {
    coherent := sound.coherent.forgetSegment segmentId
    sized := fun row member => sound.sized row (mem_filter.mp member).1
    framed := fun row member => sound.framed row (mem_filter.mp member).1
    headed := fun other state durableEnd row =>
      sound.headed other state durableEnd (row_forgetSegment.mp row).2 }
  rows := fun _ state durableEnd row => ⟨state, durableEnd, (row_forgetSegment.mp row).2⟩

theorem IndexSound.dropSegmentMappings
    (segmentId : Nat) :
    Recovers hashBlock submitted index (index.dropSegmentMappings segmentId) := by
  have rows : ∀ other state durableEnd,
      (index.dropSegmentMappings segmentId).Row other state durableEnd →
        index.Row other state durableEnd := by
    intro other state durableEnd row
    obtain ⟨old, listed, same, inState, ends⟩ :=
      (row_updateSegment (by exact fun _ => rfl)).mp row
    refine ⟨old, listed, same, ?_, ?_⟩
    · rw [← inState]
      split <;> rfl
    · rw [← ends]
      split <;> rfl
  exact {
    sound := {
      coherent := sound.coherent.dropSegmentMappings segmentId
      sized := fun row member => sound.sized row (mem_filter.mp member).1
      framed := fun row member => sound.framed row (mem_filter.mp member).1
      headed := fun other state durableEnd row =>
        sound.headed other state durableEnd (rows _ _ _ row) }
    rows := fun _ state durableEnd row => ⟨state, durableEnd, rows _ _ _ row⟩ }

theorem IndexSound.repairSegmentToLength
    (segmentId fileLen : Nat) :
    Recovers hashBlock submitted index (index.repairSegmentToLength segmentId fileLen) where
  sound := {
    coherent := sound.coherent.repairSegmentToLength sound.framed segmentId fileLen
    sized := fun row member => sound.sized row (List.mem_filter.mp member).1
    framed := fun row member => sound.framed row (List.mem_filter.mp member).1
    headed := by
      intro other state durableEnd row
      obtain ⟨old, listed, same, _, ends⟩ := (row_updateSegment (by exact fun _ => rfl)).mp row
      rw [← ends]
      split
      · dsimp only
        split
        · exact Nat.le_refl _
        · rename_i found
          obtain ⟨stop, member⟩ := exists_mem_of_ne_nil _
            fun empty => found (isEmpty_iff.mpr empty)
          obtain ⟨block, inside, rfl⟩ := mem_map.mp member
          have mapped := (mem_filter.mp (mem_filter.mp inside).1).1
          obtain ⟨house, _, houses⟩ := sound.coherent.housed block mapped
          have atLeast := @le_greatest 0 _ _ member
          exact Nat.le_trans houses.2.2.1 (Nat.le_trans (Nat.le_add_right _ _) atLeast)
      · exact sound.headed other old.state old.durableEnd ⟨old, listed, same, rfl, rfl⟩ }
  rows := by
    intro other state durableEnd row
    obtain ⟨old, listed, same, _, _⟩ := (row_updateSegment (by exact fun _ => rfl)).mp row
    exact ⟨old.state, old.durableEnd, old, listed, same, rfl, rfl⟩

theorem Recovers.refl :
    Recovers hashBlock submitted index index where
  sound := sound
  rows := fun _ state durableEnd row => ⟨state, durableEnd, row⟩

end

theorem IndexSound.recoverRow {recovering : Recovering}
    (sound : IndexSound hashBlock submitted recovering.index) (removable : Nat → Bool)
    (row : SegmentRow) :
    Recovers hashBlock submitted recovering.index
      (Segments.recoverRow removable recovering row).index := by
  rw [Segments.recoverRow]
  split
  · split
    · exact .refl sound
    · exact sound.forgetSegment row.segmentId
  · split
    · have dropped := sound.dropSegmentMappings row.segmentId
      exact dropped.trans (dropped.sound.forgetSegment row.segmentId)
    · split
      · exact .refl sound
      · split
        · exact sound.repairSegmentToLength row.segmentId _
        · exact .refl sound

theorem IndexSound.reconcile {recovering : Recovering}
    (sound : IndexSound hashBlock submitted recovering.index) (removable : Nat → Bool)
    (rows : List SegmentRow) :
    Recovers hashBlock submitted recovering.index
      (rows.foldl (Segments.recoverRow removable) recovering).index := by
  induction rows generalizing recovering with
  | nil => exact .refl sound
  | cons row rows induction =>
    have first := sound.recoverRow removable row
    exact first.trans (induction first.sound)

section

variable (sound : IndexSound hashBlock submitted index)

include sound

theorem IndexSound.restate
    (coherent : Coherent after) (same : after.blocks = index.blocks)
    (rows : ∀ segmentId state durableEnd, after.Row segmentId state durableEnd →
      ∃ earlier, index.Row segmentId earlier durableEnd) :
    Recovers hashBlock submitted index after where
  sound := {
    coherent := coherent
    sized := fun row member => sound.sized row (same ▸ member)
    framed := fun row member => sound.framed row (same ▸ member)
    headed := by
      intro segmentId state durableEnd row
      obtain ⟨earlier, old⟩ := rows _ _ _ row
      exact sound.headed _ _ _ old }
  rows := by
    intro segmentId state durableEnd row
    obtain ⟨earlier, old⟩ := rows _ _ _ row
    exact ⟨earlier, durableEnd, old⟩

theorem IndexSound.retireEmptySegment
    (segmentId : Nat) :
    Recovers hashBlock submitted index (index.retireEmptySegment segmentId) := by
  apply sound.restate (sound.coherent.retireEmptySegment segmentId) rfl
  intro other state durableEnd row
  obtain ⟨before, old, _⟩ := row_of_retireEmptySegment row
  exact ⟨before, old⟩

theorem IndexSound.closeRow (row : SegmentRow) :
    Recovers hashBlock submitted index (Segments.closeRow index row) := by
  rw [Segments.closeRow]
  split
  · split
    · exact sound.retireEmptySegment row.segmentId
    · apply sound.restate (sound.coherent.setSegmentState row.segmentId) rfl
      intro other state durableEnd changed
      obtain ⟨before, old, _⟩ := row_setSegmentState.mp changed
      exact ⟨before, old⟩
  · exact .refl sound

theorem IndexSound.retireRow (row : SegmentRow) :
    Recovers hashBlock submitted index (Segments.retireRow index row) := by
  rw [Segments.retireRow]
  split
  · exact sound.retireEmptySegment row.segmentId
  · exact .refl sound

end

theorem Recovers.foldl {change : BlockIndex → SegmentRow → BlockIndex}
    (each : ∀ index row, IndexSound hashBlock submitted index →
      Recovers hashBlock submitted index (change index row))
    (sound : IndexSound hashBlock submitted index) (rows : List SegmentRow) :
    Recovers hashBlock submitted index (rows.foldl change index) := by
  induction rows generalizing index with
  | nil => exact .refl sound
  | cons row rows induction =>
    have first := each index row sound
    exact first.trans (induction first.sound)

theorem IndexSound.recover (sound : IndexSound hashBlock submitted index)
    (removable stageRemovable : Nat → Bool) (directory : Directory) :
    Recovers hashBlock submitted index
      (Segments.recover removable stageRemovable index directory).1.index := by
  have reconciled := @IndexSound.reconcile _ _ ⟨index, directory⟩ sound removable index.segments
  have closed := Recovers.foldl (fun _ row sound => sound.closeRow row) reconciled.sound
    index.segments
  have retired := Recovers.foldl (fun _ row sound => sound.retireRow row) closed.sound
    index.segments
  exact (reconciled.trans closed).trans retired

theorem lt_recover_next {removable stageRemovable : Nat → Bool} {directory : Directory}
    {segmentId : Nat}
    (used : segmentId ∈ directory.names ++ index.segments.map SegmentRow.segmentId) :
    segmentId < (Segments.recover removable stageRemovable index directory).2 := by
  have below : segmentId ≤ greatest 0 (directory.names ++
      index.segments.map SegmentRow.segmentId ++ directory.staged.filter fun name =>
        name ∉ index.segments.map SegmentRow.segmentId && stageRemovable name) :=
    le_greatest (mem_append_left _ used)
  exact Nat.lt_of_le_of_lt below (Nat.lt_of_lt_of_le (Nat.lt_succ_self _) (Nat.le_max_right _ _))

end Yadorilink.Segments
