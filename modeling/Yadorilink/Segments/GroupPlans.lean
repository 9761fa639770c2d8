import Yadorilink.Segments.Accounting

/-! What a group's transaction leaves in the index: the rows of the segments it appended to, the
blocks it mapped or moved, and everything else as it was. -/

namespace Yadorilink.Segments

open List BlockIndex SegmentRow

variable {index : BlockIndex} {segmentId other durableEnd : Nat} {state : SegmentState}

/-! ## Rows by state and durable end -/

/-- The index has a row of this segment in this state and with this durable end. -/
def BlockIndex.Row (index : BlockIndex) (segmentId : Nat) (state : SegmentState)
    (durableEnd : Nat) : Prop :=
  ∃ row ∈ index.segments, row.segmentId = segmentId ∧ row.state = state ∧
    row.durableEnd = durableEnd

theorem row_updateSegment {change : SegmentRow → SegmentRow}
    (names : ∀ row, (change row).segmentId = row.segmentId) :
    (index.updateSegment segmentId change).Row other state durableEnd ↔
      ∃ row ∈ index.segments, row.segmentId = other ∧
        (if other = segmentId then change row else row).state = state ∧
        (if other = segmentId then change row else row).durableEnd = durableEnd := by
  constructor
  · rintro ⟨row, member, isOther, inState, ends⟩
    obtain ⟨old, listed, rfl⟩ := mem_updateSegment.mp member
    have same : old.segmentId = other := by
      rw [← isOther]
      split
      · exact (names old).symm
      · rfl
    rw [same] at inState ends
    exact ⟨old, listed, same, inState, ends⟩
  · rintro ⟨row, listed, isOther, inState, ends⟩
    refine ⟨_, mem_updateSegment.mpr ⟨row, listed, rfl⟩, ?_⟩
    rw [isOther]
    refine ⟨?_, inState, ends⟩
    split
    · exact (names row).trans isOther
    · exact isOther

theorem row_debit {tally : Tally} : (index.debit segmentId tally).Row other state durableEnd ↔
      index.Row other state durableEnd := by
  rw [debit, row_updateSegment (by exact fun _ => rfl)]
  apply exists_congr
  intro row
  split <;> rfl

theorem row_credit {stop : Nat} {tally : Tally} :
    (index.credit segmentId stop tally).Row other state durableEnd ↔
      if other = segmentId then durableEnd = stop ∧ ∃ before, index.Row other state before
      else index.Row other state durableEnd := by
  rw [credit, row_updateSegment (by exact fun _ => rfl)]
  split
  · constructor
    · rintro ⟨row, listed, isOther, inState, ends⟩
      exact ⟨ends.symm, row.durableEnd, row, listed, isOther, inState, rfl⟩
    · rintro ⟨ends, before, row, listed, isOther, inState, _⟩
      exact ⟨row, listed, isOther, inState, ends.symm⟩
  · exact Iff.rfl

theorem row_removeBlock {hash : RawHash} :
    (index.removeBlock hash).Row other state durableEnd ↔ index.Row other state durableEnd := by
  rw [removeBlock]
  split
  · exact Iff.rfl
  · exact row_debit

theorem row_removeBlocks {hashes : List RawHash} :
    (index.removeBlocks hashes).Row other state durableEnd ↔ index.Row other state durableEnd := by
  rw [removeBlocks]
  induction hashes generalizing index with
  | nil => exact Iff.rfl
  | cons hash hashes induction => exact induction.trans row_removeBlock

theorem row_setSegmentState {next : SegmentState} :
    (index.setSegmentState segmentId next).Row other state durableEnd ↔
      ∃ before, index.Row other before durableEnd ∧
        state = if other = segmentId then next else before := by
  rw [setSegmentState, row_updateSegment (by exact fun _ => rfl)]
  constructor
  · rintro ⟨row, listed, isOther, inState, ends⟩
    refine ⟨row.state, ⟨row, listed, isOther, rfl, ?_⟩, ?_⟩
    · rw [← ends]
      split <;> rfl
    · rw [← inState]
      split <;> rfl
  · rintro ⟨before, ⟨row, listed, isOther, inState, ends⟩, after⟩
    refine ⟨row, listed, isOther, ?_, ?_⟩
    · rw [after, ← inState]
      split <;> rfl
    · rw [← ends]
      split <;> rfl

theorem row_sealSegment : (index.sealSegment segmentId).Row other state durableEnd ↔
      ∃ before, index.Row other before durableEnd ∧
        state = if other = segmentId ∧ before = .active then .sealed else before := by
  rw [sealSegment, row_updateSegment (by intro row; split <;> rfl)]
  have becomes : ∀ row : SegmentRow,
      (if other = segmentId then
          if row.state = .active then { row with state := .sealed } else row
        else row) = { row with
          state := if other = segmentId ∧ row.state = .active then .sealed else row.state } := by
    intro row
    by_cases here : other = segmentId
    · by_cases wasActive : row.state = .active
      · rw [if_pos here, if_pos wasActive, if_pos ⟨here, wasActive⟩]
      · rw [if_pos here, if_neg wasActive, if_neg fun both => wasActive both.2]
    · rw [if_neg here, if_neg fun both => here both.1]
  simp only [becomes]
  constructor
  · rintro ⟨row, listed, isOther, inState, ends⟩
    exact ⟨row.state, ⟨row, listed, isOther, rfl, ends⟩, inState.symm⟩
  · rintro ⟨before, ⟨row, listed, isOther, rfl, ends⟩, after⟩
    exact ⟨row, listed, isOther, after.symm, ends⟩

theorem row_sealAll {sealed : List Nat} : (index.sealAll sealed).Row other state durableEnd ↔
      ∃ before, index.Row other before durableEnd ∧
        state = if other ∈ sealed ∧ before = .active then .sealed else before := by
  rw [sealAll]
  induction sealed generalizing index with
  | nil =>
    constructor
    · exact fun row => ⟨state, row, (if_neg fun both => not_mem_nil both.1).symm⟩
    · rintro ⟨before, row, same⟩
      rw [if_neg fun both => not_mem_nil both.1] at same
      exact same ▸ row
  | cons segmentId sealed induction =>
    rw [foldl_cons, induction]
    constructor
    · rintro ⟨middle, row, after⟩
      obtain ⟨before, old, was⟩ := row_sealSegment.mp row
      refine ⟨before, old, ?_⟩
      rw [after, was]
      by_cases wasActive : before = .active
      · by_cases here : other = segmentId
        · simp [wasActive, here]
        · simp [wasActive, here]
      · simp [wasActive]
    · rintro ⟨before, row, after⟩
      refine ⟨_, row_sealSegment.mpr ⟨before, row, rfl⟩, ?_⟩
      rw [after]
      by_cases wasActive : before = .active
      · by_cases here : other = segmentId
        · simp [wasActive, here]
        · simp [wasActive, here]
      · simp [wasActive]

theorem row_of_retireEmptySegment
    (row : (index.retireEmptySegment segmentId).Row other state durableEnd) :
    ∃ before, index.Row other before durableEnd ∧
      (state = before ∨ before ≠ .active ∧ state = .retired) := by
  rw [retireEmptySegment,
    row_updateSegment (by intro row; rw [retireEmpty]; split <;> rfl)] at row
  obtain ⟨old, listed, isOther, inState, ends⟩ := row
  refine ⟨old.state, ⟨old, listed, isOther, rfl, ?_⟩, ?_⟩
  · rw [← ends]
    split
    · rw [retireEmpty]
      split <;> rfl
    · rfl
  · rw [← inState]
    split
    · rw [retireEmpty]
      split
      · rename_i empty
        exact .inr ⟨empty.2, rfl⟩
      · exact .inl rfl
    · exact .inl rfl

theorem row_retireEmptySegment (row : index.Row other state durableEnd) :
    ∃ after, (index.retireEmptySegment segmentId).Row other after durableEnd ∧
      (after = state ∨ state ≠ .active ∧ after = .retired) := by
  obtain ⟨old, listed, isOther, inState, ends⟩ := row
  have kept : (retireEmpty old).durableEnd = old.durableEnd := by
    rw [retireEmpty]
    split <;> rfl
  by_cases here : other = segmentId
  · refine ⟨(retireEmpty old).state, ?_, ?_⟩
    · apply (row_updateSegment (by intro row; rw [retireEmpty]; split <;> rfl)).mpr
      exact ⟨old, listed, isOther, by rw [if_pos here], by rw [if_pos here, kept, ends]⟩
    · rw [retireEmpty]
      split
      · rename_i empty
        exact .inr ⟨inState ▸ empty.2, rfl⟩
      · exact .inl inState
  · refine ⟨state, ?_, .inl rfl⟩
    apply (row_updateSegment (by intro row; rw [retireEmpty]; split <;> rfl)).mpr
    exact ⟨old, listed, isOther, by rw [if_neg here, inState], by rw [if_neg here, ends]⟩

theorem row_retireEmptySegment_active (row : index.Row other .active durableEnd) :
    (index.retireEmptySegment segmentId).Row other .active durableEnd := by
  obtain ⟨after, here, same | ⟨notActive, _⟩⟩ := @row_retireEmptySegment _ segmentId _ _ _ row
  · exact same ▸ here
  · exact absurd rfl notActive

theorem row_forgetSegment : (index.forgetSegment segmentId).Row other state durableEnd ↔
      other ≠ segmentId ∧ index.Row other state durableEnd := by
  constructor
  · rintro ⟨row, member, isOther, inState, ends⟩
    rcases mem_filter.mp member with ⟨listed, kept⟩
    exact ⟨isOther ▸ of_decide_eq_true kept, row, listed, isOther, inState, ends⟩
  · rintro ⟨differ, row, listed, isOther, inState, ends⟩
    have kept : row.segmentId ≠ segmentId := isOther ▸ differ
    exact ⟨row, mem_filter.mpr ⟨listed, decide_eq_true kept⟩, isOther, inState, ends⟩

theorem Coherent.row_unique (coherent : Coherent index) {first second : SegmentState}
    {here there : Nat} (one : index.Row segmentId first here)
    (two : index.Row segmentId second there) : first = second ∧ here = there := by
  obtain ⟨row, listed, isThis, rfl, rfl⟩ := one
  obtain ⟨also, found, same, rfl, rfl⟩ := two
  rw [KeyedFold.eq_of_key coherent.segments listed found (isThis.trans same.symm)]
  exact ⟨rfl, rfl⟩

theorem Coherent.segment_of_row (coherent : Coherent index)
    (row : index.Row segmentId state durableEnd) :
    (index.segment segmentId).map SegmentRow.durableEnd = some durableEnd := by
  obtain ⟨listed, member, isThis, inState, ends⟩ := row
  cases found : index.segment segmentId with
  | none =>
    have nowhere := find?_eq_none.mp found listed member
    exact absurd (decide_eq_true isThis) nowhere
  | some other =>
    rcases mem_of_segment found with ⟨there, same⟩
    rw [KeyedFold.eq_of_key coherent.segments there member (same.trans isThis.symm)]
    exact congrArg some ends

theorem row_of_segment {row : SegmentRow} (found : index.segment segmentId = some row) :
    index.Row segmentId row.state row.durableEnd := by
  rcases mem_of_segment found with ⟨listed, same⟩
  exact ⟨row, listed, same, rfl, rfl⟩

/-! ## One append -/

variable {append : SegmentAppend} {block : NewBlockRow} {blocks : List NewBlockRow}

theorem any_segment_iff : (index.segments.any fun row => row.segmentId = segmentId) = true ↔
      ∃ state durableEnd, index.Row segmentId state durableEnd := by
  rw [any_eq_true]
  constructor
  · rintro ⟨row, listed, same⟩
    exact ⟨row.state, row.durableEnd, row, listed, of_decide_eq_true same, rfl, rfl⟩
  · rintro ⟨_, _, row, listed, same, _, _⟩
    exact ⟨row, listed, decide_eq_true same⟩

theorem row_openSegment :
    (index.openSegment append).Row other state durableEnd ↔ index.Row other state durableEnd ∨
        (append.created = true ∧ other = append.segmentId ∧ state = .active ∧
          durableEnd = segmentHeaderLen ∧ ∀ state durableEnd, ¬index.Row other state durableEnd) := by
  rw [BlockIndex.openSegment]
  split
  · rename_i created
    rw [BlockIndex.insertSegment]
    split
    · rename_i found
      obtain ⟨present, stop, row⟩ := any_segment_iff.mp found
      constructor
      · exact .inl
      · intro either
        rcases either with old | ⟨_, same, _, _, nowhere⟩
        · exact old
        · exact absurd (same ▸ row) (nowhere present stop)
    · rename_i absent
      constructor
      · rintro ⟨row, member, isOther, inState, ends⟩
        rcases mem_append.mp member with old | new
        · exact .inl ⟨row, old, isOther, inState, ends⟩
        · rw [mem_singleton.mp new] at isOther inState ends
          have isThis : append.segmentId = other := isOther
          refine .inr ⟨created, isThis.symm, inState.symm, ends.symm, ?_⟩
          intro present stop row
          exact absent (any_segment_iff.mpr ⟨present, stop, isThis ▸ row⟩)
      · intro either
        rcases either with ⟨row, listed, rest⟩ | ⟨_, same, isActive, ends, _⟩
        · exact ⟨row, mem_append_left _ listed, rest⟩
        · exact ⟨_, mem_append_right _ (.head _), same.symm,
            isActive.symm, ends.symm⟩
  · rename_i existing
    constructor
    · exact .inl
    · intro either
      rcases either with old | ⟨created, _⟩
      · exact old
      · exact absurd created existing

theorem blocks_openSegment : (index.openSegment append).blocks = index.blocks := by
  rw [BlockIndex.openSegment]
  split
  · rw [BlockIndex.insertSegment]
    split <;> rfl
  · rfl

theorem Coherent.openSegment (coherent : Coherent index) (append : SegmentAppend) :
    Coherent (index.openSegment append) := by
  rw [BlockIndex.openSegment]
  split
  · rw [BlockIndex.insertSegment]
    split
    · exact coherent
    · rename_i absent
      have apart : ∀ row ∈ index.segments, row.segmentId ≠ append.segmentId :=
        fun row listed same =>
          absent (any_eq_true.mpr ⟨row, listed, decide_eq_true same⟩)
      exact {
        hashes := coherent.hashes
        segments := by
          apply pairwise_append.mpr
          refine ⟨coherent.segments, pairwise_singleton _ _, ?_⟩
          intro row listed new isNew
          rw [mem_singleton.mp isNew]
          exact apart row listed
        counted := by
          refine forall_mem_concat coherent.counted ?_
          have none : liveIn append.segmentId index.blocks = 0 := by
            apply countP_eq_zero.mpr
            intro block mapped inside
            obtain ⟨house, listed, houses⟩ := coherent.housed block mapped
            exact apart house listed (houses.1.trans (of_decide_eq_true inside))
          exact (congrArg Nat.cast none).symm
        housed := by
          intro block mapped
          obtain ⟨house, listed, houses⟩ := coherent.housed block mapped
          exact ⟨house, mem_append_left _ listed, houses⟩ }
  · exact coherent

/-- What an append needs of the index: the segment is new, or it is there and not retired and its
records end before the new ones. -/
structure Appendable (index : BlockIndex) (append : SegmentAppend) : Prop where
  created : append.created = true →
    (∀ state durableEnd, ¬index.Row append.segmentId state durableEnd) ∧
      segmentHeaderLen ≤ append.durableEnd
  existing : append.created = false → ∃ state durableEnd,
    index.Row append.segmentId state durableEnd ∧ state ≠ .retired ∧ durableEnd ≤ append.durableEnd
  within : ∀ block ∈ append.blocks, (block.inSegment append.segmentId).Within append.durableEnd

theorem Appendable.opened (appendable : Appendable index append) :
    ∃ state durableEnd, (index.openSegment append).Row append.segmentId state durableEnd ∧
      state ≠ .retired ∧ durableEnd ≤ append.durableEnd := by
  cases created : append.created with
  | true =>
    rcases appendable.created created with ⟨absent, long⟩
    exact ⟨.active, segmentHeaderLen,
      row_openSegment.mpr (.inr ⟨created, rfl, rfl, rfl, absent⟩), nofun, long⟩
  | false =>
    obtain ⟨state, durableEnd, row, usable, grows⟩ := appendable.existing created
    exact ⟨state, durableEnd, row_openSegment.mpr (.inl row), usable, grows⟩

theorem Coherent.addingOpened (coherent : Coherent index) (appendable : Appendable index append) :
    Adding (index.openSegment append) append.segmentId append.durableEnd 0 := by
  obtain ⟨state, durableEnd, ⟨row, listed, isThis, inState, ends⟩, usable, grows⟩ :=
    appendable.opened
  exact (coherent.openSegment append).adding listed isThis (inState ▸ usable) (ends ▸ grows)

theorem Coherent.applyAppend (coherent : Coherent index) (appendable : Appendable index append) :
    Coherent (index.applyAppend append) := by
  have inserted := (coherent.addingOpened appendable).insertNewBlocks appendable.within
  rw [Int.zero_add] at inserted
  exact inserted.credit

def RowAfter (index : BlockIndex) (append : SegmentAppend) (other : Nat) (state : SegmentState)
    (durableEnd : Nat) : Prop :=
  durableEnd = append.durableEnd ∧ ((∃ before, index.Row other state before) ∨
    append.created = true ∧ state = .active ∧ ∀ state durableEnd, ¬index.Row other state durableEnd)

theorem row_appended {middle : BlockIndex} {tally : Tally}
    (rows : ∀ state durableEnd, middle.Row other state durableEnd ↔
      (index.openSegment append).Row other state durableEnd) :
    (middle.credit append.segmentId append.durableEnd tally).Row other state durableEnd ↔
      if other = append.segmentId then RowAfter index append other state durableEnd
      else index.Row other state durableEnd := by
  rw [row_credit]
  by_cases here : other = append.segmentId
  · rw [if_pos here, if_pos here]
    apply and_congr_right
    intro _
    constructor
    · rintro ⟨before, row⟩
      rcases row_openSegment.mp ((rows state before).mp row) with old | ⟨created, _, isActive, _, absent⟩
      · exact .inl ⟨before, old⟩
      · exact .inr ⟨created, isActive, absent⟩
    · intro either
      rcases either with ⟨before, old⟩ | ⟨created, isActive, absent⟩
      · exact ⟨before, (rows state before).mpr (row_openSegment.mpr (.inl old))⟩
      · exact ⟨segmentHeaderLen, (rows state _).mpr
          (row_openSegment.mpr (.inr ⟨created, here, isActive, rfl, absent⟩))⟩
  · rw [if_neg here, if_neg here, rows state durableEnd, row_openSegment]
    constructor
    · intro either
      rcases either with old | new
      · exact old
      · exact absurd new.2.1 here
    · exact .inl

theorem row_repointBlock : (index.repointBlock segmentId block).1.Row other state durableEnd ↔
      index.Row other state durableEnd := by
  unfold repointBlock
  split
  · exact Iff.rfl
  · exact row_debit

theorem row_repointRelocatedBlocks :
    (index.repointRelocatedBlocks segmentId blocks).1.Row other state durableEnd ↔
      index.Row other state durableEnd := by
  induction blocks generalizing index with
  | nil => exact Iff.rfl
  | cons block blocks induction =>
    rw [repointRelocatedBlocks]
    exact induction.trans row_repointBlock

/-! ## The blocks a group maps -/

/-- One of the appends wrote the record the block is mapped to. -/
def MappedBy (appends : List SegmentAppend) (row : BlockRow) : Prop :=
  ∃ append ∈ appends, ∃ block ∈ append.blocks, row.hash = block.hash ∧
    row.segmentId = append.segmentId ∧ row.recordOffset = block.recordOffset ∧
    row.payloadLen = block.payloadLen

/-- The two length columns of a row come together, from an earlier row or an append. -/
def Measured (before : BlockIndex) (appends : List SegmentAppend) (row : BlockRow) : Prop :=
  (∃ old ∈ before.blocks, row.payloadLen = old.payloadLen ∧ row.recordLen = old.recordLen) ∨
    ∃ append ∈ appends, ∃ block ∈ append.blocks,
      row.payloadLen = block.payloadLen ∧ row.recordLen = block.recordLen

/-- What a group's transaction does to the mappings: those it adds or moves are to its own
records, and no block loses its mapping. -/
structure Maps (before after : BlockIndex) (appends : List SegmentAppend) : Prop where
  new : ∀ row ∈ after.blocks, row ∈ before.blocks ∨ MappedBy appends row
  kept : ∀ row ∈ before.blocks, ∃ later ∈ after.blocks, later.hash = row.hash
  measured : ∀ row ∈ after.blocks, Measured before appends row

theorem Maps.nothing {after : BlockIndex} {appends : List SegmentAppend}
    (same : after.blocks = index.blocks) : Maps index after appends where
  new := fun _ member => .inl (same ▸ member)
  kept := fun row member => ⟨row, same ▸ member, rfl⟩
  measured := fun row member => .inl ⟨row, same ▸ member, rfl, rfl⟩

theorem MappedBy.mono {appends more : List SegmentAppend} {row : BlockRow}
    (mapped : MappedBy appends row) (subset : appends ⊆ more) : MappedBy more row := by
  obtain ⟨append, listed, rest⟩ := mapped
  exact ⟨append, subset listed, rest⟩

theorem Maps.mono {before after : BlockIndex} {appends more : List SegmentAppend}
    (maps : Maps before after appends) (subset : appends ⊆ more) : Maps before after more where
  new := fun row member => (maps.new row member).imp_right fun mapped => mapped.mono subset
  kept := maps.kept
  measured := by
    intro row member
    rcases maps.measured row member with old | ⟨append, listed, rest⟩
    · exact .inl old
    · exact .inr ⟨append, subset listed, rest⟩

theorem Maps.trans {before middle after : BlockIndex} {appends : List SegmentAppend}
    (first : Maps before middle appends) (second : Maps middle after appends) :
    Maps before after appends where
  new := by
    intro row member
    rcases second.new row member with old | new
    · exact first.new row old
    · exact .inr new
  kept := by
    intro row member
    obtain ⟨later, there, same⟩ := first.kept row member
    obtain ⟨last, mapped, also⟩ := second.kept later there
    exact ⟨last, mapped, also.trans same⟩
  measured := by
    intro row member
    rcases second.measured row member with ⟨middle, there, payload, record⟩ | new
    · rw [Measured, payload, record]
      exact first.measured middle there
    · exact .inr new

theorem insertNewBlocks_subset (rows : List BlockRow) (blocks : List NewBlockRow) :
    rows ⊆ (insertNewBlocks segmentId rows blocks).1 := by
  induction blocks generalizing rows with
  | nil => exact List.Subset.refl rows
  | cons block blocks induction =>
    rw [insertNewBlocks]
    split
    · exact induction rows
    · exact List.Subset.trans (subset_append_left rows _) (induction _)

theorem mem_insertNewBlocks {rows : List BlockRow} {row : BlockRow}
    (member : row ∈ (insertNewBlocks segmentId rows blocks).1) :
    row ∈ rows ∨ ∃ block ∈ blocks, row = block.inSegment segmentId := by
  induction blocks generalizing rows with
  | nil => exact .inl member
  | cons block blocks induction =>
    rw [insertNewBlocks] at member
    split at member
    · rcases induction member with old | ⟨new, listed, same⟩
      · exact .inl old
      · exact .inr ⟨new, .tail block listed, same⟩
    · rcases induction member with old | ⟨new, listed, same⟩
      · rcases mem_append.mp old with before | here
        · exact .inl before
        · exact .inr ⟨block, .head _, mem_singleton.mp here⟩
      · exact .inr ⟨new, .tail block listed, same⟩

theorem insertNewBlocks_mapped {rows : List BlockRow} {blocks : List NewBlockRow}
    {block : NewBlockRow} (member : block ∈ blocks) :
    ∃ row ∈ (insertNewBlocks segmentId rows blocks).1, row.hash = block.hash := by
  induction blocks generalizing rows with
  | nil => cases member
  | cons first blocks induction =>
    rw [insertNewBlocks]
    rcases mem_cons.mp member with rfl | later
    · split
      · rename_i found
        obtain ⟨row, listed, same⟩ := any_eq_true.mp found
        exact ⟨row, insertNewBlocks_subset rows blocks listed, of_decide_eq_true same⟩
      · refine ⟨block.inSegment segmentId, insertNewBlocks_subset _ blocks ?_, rfl⟩
        exact mem_append_right _ (.head _)
    · split
      · exact induction later
      · exact induction later

theorem maps_applyAppend : Maps index (index.applyAppend append) [append] where
  new := by
    intro row member
    rcases mem_insertNewBlocks member with old | ⟨block, listed, rfl⟩
    · exact .inl (blocks_openSegment ▸ old)
    · exact .inr ⟨append, .head _, block, listed, rfl, rfl, rfl, rfl⟩
  kept := by
    intro row member
    refine ⟨row, insertNewBlocks_subset _ _ ?_, rfl⟩
    rw [blocks_openSegment]
    exact member
  measured := by
    intro row member
    rcases mem_insertNewBlocks member with old | ⟨block, listed, rfl⟩
    · exact .inl ⟨row, blocks_openSegment ▸ old, rfl, rfl⟩
    · exact .inr ⟨append, .head _, block, listed, rfl, rfl⟩

/-- A copy has the length of the block it was made of. -/
def Copies (index : BlockIndex) (blocks : List NewBlockRow) : Prop :=
  ∀ block ∈ blocks, ∀ row ∈ index.blocks, row.hash = block.hash → row.payloadLen = block.payloadLen

theorem maps_repointBlock (copies : Copies index [block]) (listed : block ∈ append.blocks) :
    Maps index (index.repointBlock append.segmentId block).1 [append] := by
  unfold repointBlock
  split
  · exact Maps.nothing rfl
  · exact {
      new := by
        intro row member
        rcases mem_follow member with old | ⟨old, there, about, rfl⟩
        · exact .inl old
        · have sized := copies block (.head _) old there about
          exact .inr ⟨append, .head _, block, listed, about, rfl, rfl, sized⟩
      kept := by
        intro row member
        exact ⟨_, mem_map_of_mem member, hash_follow block row⟩
      measured := by
        intro row member
        rcases mem_follow member with old | ⟨old, there, _, rfl⟩
        · exact .inl ⟨row, old, rfl, rfl⟩
        · exact .inl ⟨old, there, rfl, rfl⟩ }

theorem mem_repointBlock {row : BlockRow}
    (member : row ∈ (index.repointBlock segmentId block).1.blocks) :
    ∃ old ∈ index.blocks, old.hash = row.hash ∧ old.payloadLen = row.payloadLen := by
  unfold repointBlock at member
  split at member
  · exact ⟨row, member, rfl, rfl⟩
  · obtain ⟨old, listed, rfl⟩ := mem_map.mp member
    exact ⟨old, listed, (hash_follow block old).symm, (payloadLen_follow block old).symm⟩

theorem Copies.repointBlock (copies : Copies index blocks) :
    Copies (index.repointBlock segmentId block).1 blocks := by
  intro copy listed row member same
  obtain ⟨old, there, about, sized⟩ := mem_repointBlock member
  rw [← sized]
  exact copies copy listed old there (about.trans same)

theorem maps_repointRelocatedBlocks (copies : Copies index blocks)
    (listed : blocks ⊆ append.blocks) :
    Maps index (index.repointRelocatedBlocks append.segmentId blocks).1 [append] := by
  induction blocks generalizing index with
  | nil => exact Maps.nothing rfl
  | cons block blocks induction =>
    rw [repointRelocatedBlocks]
    have here : Copies index [block] := fun copy member =>
      copies copy (mem_singleton.mp member ▸ .head _)
    have later : Copies index blocks := fun copy member =>
      copies copy (.tail block member)
    exact (maps_repointBlock here (listed (.head _))).trans
      (induction later.repointBlock (subset_of_cons_subset listed))

theorem Adding.repointRelocatedBlocks {target stop : Nat} {extra : Int}
    (adding : Adding index target stop extra) (copies : Copies index blocks)
    (within : ∀ block ∈ blocks, (block.inSegment target).Within stop) :
    Adding (index.repointRelocatedBlocks target blocks).1 target stop
      (extra + (index.repointRelocatedBlocks target blocks).2.blocks) := by
  induction blocks generalizing index extra with
  | nil =>
    rw [repointRelocatedBlocks, Tally.zero, Int.add_zero]
    exact adding
  | cons block blocks induction =>
    rw [repointRelocatedBlocks]
    have first := adding.repointBlock (copies block (.head _))
      (within block (.head _))
    have later : Copies index blocks := fun copy member =>
      copies copy (.tail block member)
    have rest := induction first later.repointBlock
      fun other member => within other (.tail block member)
    rw [Int.add_assoc] at rest
    exact rest

theorem Copies.openSegment (copies : Copies index blocks) :
    Copies (index.openSegment append) blocks := by
  rw [Copies, blocks_openSegment]
  exact copies

theorem Coherent.applyRelocation (coherent : Coherent index)
    (appendable : Appendable index append) (copies : Copies index append.blocks) :
    Coherent (index.applyRelocation append) := by
  have moved := (coherent.addingOpened appendable).repointRelocatedBlocks copies.openSegment
    appendable.within
  rw [Int.zero_add] at moved
  exact moved.credit

theorem maps_applyRelocation (copies : Copies index append.blocks) :
    Maps index (index.applyRelocation append) [append] := by
  have moved : Maps (index.openSegment append) (index.applyRelocation append) [append] :=
    have repointed := maps_repointRelocatedBlocks copies.openSegment (List.Subset.refl _)
    ⟨repointed.new, repointed.kept, repointed.measured⟩
  exact (Maps.nothing blocks_openSegment).trans moved

/-! ## All appends of a group -/

/-- A way to apply an append that leaves other segments' rows alone. -/
def Applies (apply : BlockIndex → SegmentAppend → BlockIndex) : Prop :=
  ∀ index append other state durableEnd, (apply index append).Row other state durableEnd ↔
      if other = append.segmentId then RowAfter index append other state durableEnd
      else index.Row other state durableEnd

theorem applies_applyAppend : Applies BlockIndex.applyAppend :=
  fun _ _ _ _ _ => row_appended fun _ _ => Iff.rfl

theorem applies_applyRelocation : Applies BlockIndex.applyRelocation :=
  fun _ _ _ _ _ => row_appended fun _ _ => row_repointRelocatedBlocks

structure Plannable (index : BlockIndex) (appends : List SegmentAppend) : Prop where
  distinct : appends.Pairwise fun first second => first.segmentId ≠ second.segmentId
  appendable : ∀ append ∈ appends, Appendable index append

variable {apply : BlockIndex → SegmentAppend → BlockIndex} {appends : List SegmentAppend}

theorem Plannable.rest (applies : Applies apply) (plannable : Plannable index (append :: appends)) :
    Plannable (apply index append) appends where
  distinct := (List.pairwise_cons.mp plannable.distinct).2
  appendable := by
    intro later listed
    have apart := (pairwise_cons.mp plannable.distinct).1 later listed
    have before := plannable.appendable later (.tail append listed)
    have rows : ∀ state durableEnd, (apply index append).Row later.segmentId state durableEnd ↔
        index.Row later.segmentId state durableEnd := by
      intro state durableEnd
      rw [applies, if_neg (Ne.symm apart)]
    exact {
      created := by
        intro created
        rcases before.created created with ⟨absent, long⟩
        exact ⟨fun state durableEnd row => absent state durableEnd ((rows _ _).mp row), long⟩
      existing := by
        intro existing
        obtain ⟨state, durableEnd, row, rest⟩ := before.existing existing
        exact ⟨state, durableEnd, (rows _ _).mpr row, rest⟩
      within := before.within }

/-- The rows after all appends: those of the appended segments, and the others as they were. -/
theorem row_foldl (applies : Applies apply)
    (distinct : appends.Pairwise fun first second => first.segmentId ≠ second.segmentId) :
    (appends.foldl apply index).Row other state durableEnd ↔
      (∃ append ∈ appends, other = append.segmentId ∧
        RowAfter index append other state durableEnd) ∨
      (∀ append ∈ appends, other ≠ append.segmentId) ∧ index.Row other state durableEnd := by
  induction appends generalizing index with
  | nil =>
    constructor
    · exact fun row => .inr ⟨nofun, row⟩
    · intro either
      rcases either with ⟨_, listed, _⟩ | ⟨_, row⟩
      · cases listed
      · exact row
  | cons append appends induction =>
    rw [pairwise_cons] at distinct
    rw [foldl_cons, induction distinct.2]
    have middle : ∀ later ∈ appends, other = later.segmentId → ∀ state durableEnd,
        (apply index append).Row other state durableEnd ↔ index.Row other state durableEnd := by
      intro later listed isLater state durableEnd
      rw [applies, if_neg]
      exact fun same => distinct.1 later listed (same.symm.trans isLater)
    constructor
    · intro either
      rcases either with ⟨later, listed, isLater, ends, before⟩ | ⟨apart, row⟩
      · left
        refine ⟨later, .tail append listed, isLater, ends, ?_⟩
        simp only [middle later listed isLater] at before
        exact before
      · rw [applies] at row
        split at row
        · rename_i here
          exact .inl ⟨append, .head _, here, row⟩
        · rename_i elsewhere
          exact .inr ⟨forall_mem_cons.mpr ⟨elsewhere, apart⟩, row⟩
    · intro either
      rcases either with ⟨later, listed, isLater, ends, before⟩ | ⟨apart, row⟩
      · rcases mem_cons.mp listed with here | inRest
        · right
          rw [here] at isLater ends before
          refine ⟨?_, ?_⟩
          · intro next there same
            exact distinct.1 next there (isLater.symm.trans same)
          · rw [applies, if_pos isLater]
            exact ⟨ends, before⟩
        · left
          refine ⟨later, inRest, isLater, ends, ?_⟩
          simp only [middle later inRest isLater]
          exact before
      · rcases forall_mem_cons.mp apart with ⟨notHere, notThere⟩
        right
        refine ⟨notThere, ?_⟩
        rw [applies, if_neg notHere]
        exact row

theorem Coherent.applyAppends (coherent : Coherent index) (plannable : Plannable index appends) :
    Coherent (appends.foldl BlockIndex.applyAppend index) := by
  induction appends generalizing index with
  | nil => exact coherent
  | cons append appends induction =>
    have first := plannable.appendable append (.head _)
    exact induction (coherent.applyAppend first) (plannable.rest applies_applyAppend)

theorem maps_applyAppends : Maps index (appends.foldl BlockIndex.applyAppend index) appends := by
  induction appends generalizing index with
  | nil => exact Maps.nothing rfl
  | cons append appends induction =>
    have first := (@maps_applyAppend index append).mono
      (cons_subset_cons append (nil_subset appends))
    exact first.trans (induction.mono (subset_cons_self append appends))

theorem mapped_applyAppends (listed : append ∈ appends) (member : block ∈ append.blocks) :
    ∃ row ∈ (appends.foldl BlockIndex.applyAppend index).blocks, row.hash = block.hash := by
  induction appends generalizing index with
  | nil => cases listed
  | cons first appends induction =>
    rw [foldl_cons]
    rcases mem_cons.mp listed with rfl | later
    · obtain ⟨row, there, same⟩ :=
        @insertNewBlocks_mapped append.segmentId (index.openSegment append).blocks _ _ member
      obtain ⟨last, mapped, also⟩ :=
        (@maps_applyAppends (index.applyAppend append) appends).kept row there
      exact ⟨last, mapped, also.trans same⟩
    · exact induction later

theorem Copies.applyRelocation (copies : Copies index blocks) (append : SegmentAppend) :
    Copies (index.applyRelocation append) blocks := by
  have moved : ∀ news : List NewBlockRow, ∀ middle : BlockIndex, Copies middle blocks →
      Copies (middle.repointRelocatedBlocks append.segmentId news).1 blocks := by
    intro news
    induction news with
    | nil => exact fun _ copies => copies
    | cons new news induction =>
      intro middle copies
      rw [repointRelocatedBlocks]
      exact induction _ copies.repointBlock
  exact moved append.blocks (index.openSegment append) copies.openSegment

theorem Coherent.applyRelocations (coherent : Coherent index) (plannable : Plannable index appends)
    (copies : ∀ append ∈ appends, Copies index append.blocks) :
    Coherent (appends.foldl BlockIndex.applyRelocation index) := by
  induction appends generalizing index with
  | nil => exact coherent
  | cons append appends induction =>
    have first := plannable.appendable append (.head _)
    have here := copies append (.head _)
    apply induction (coherent.applyRelocation first here)
      (plannable.rest applies_applyRelocation)
    intro later listed
    exact (copies later (.tail append listed)).applyRelocation append

theorem maps_applyRelocations (copies : ∀ append ∈ appends, Copies index append.blocks) :
    Maps index (appends.foldl BlockIndex.applyRelocation index) appends := by
  induction appends generalizing index with
  | nil => exact Maps.nothing rfl
  | cons append appends induction =>
    have here := copies append (.head _)
    have first := (maps_applyRelocation here).mono
      (cons_subset_cons append (nil_subset appends))
    have later : ∀ next ∈ appends, Copies (index.applyRelocation append) next.blocks :=
      fun next listed => (copies next (.tail append listed)).applyRelocation append
    exact first.trans ((induction later).mono (subset_cons_self append appends))

end Yadorilink.Segments
