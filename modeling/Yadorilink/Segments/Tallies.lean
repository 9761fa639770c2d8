import Yadorilink.Segments.Reachable

/-! What each segment row counts is exact: blocks, payload bytes and record bytes are the sums over
the rows of the blocks mapped into the segment, and each record ends where its segment does or
before. -/

namespace Yadorilink.Segments

open Machine GroupState Tally List SegmentRow

variable {hashBlock : Bytes → RawHash} {submitted : List Bytes} {index : BlockIndex}

def BlockIndex.mappedTo (index : BlockIndex) (segmentId : Nat) : List BlockRow :=
  index.blocks.filter fun block => block.segmentId = segmentId

/-! ## Exact rows -/

/-- The lengths in a row are those of a block that was put. -/
def HasLengths (hashBlock : Bytes → RawHash) (submitted : List Bytes) (hash : RawHash)
    (payloadLen recordLen : Nat) : Prop :=
  ∃ block ∈ submitted, hashBlock block = hash ∧ payloadLen = block.length % 2 ^ 32 ∧
    recordLen = Segments.recordLen block.length

theorem HasLengths.unique (free : CollisionFree hashBlock submitted) {hash : RawHash}
    {payloadLen recordLen otherPayload otherRecord : Nat}
    (one : HasLengths hashBlock submitted hash payloadLen recordLen)
    (two : HasLengths hashBlock submitted hash otherPayload otherRecord) :
    payloadLen = otherPayload ∧ recordLen = otherRecord := by
  rcases one with ⟨block, listed, hashes, rfl, rfl⟩
  rcases two with ⟨other, also, same, rfl, rfl⟩
  rw [free block listed other also (hashes.trans same.symm)]
  exact ⟨rfl, rfl⟩

theorem HasLengths.mono {more : List Bytes} {hash : RawHash} {payloadLen recordLen : Nat}
    (sized : HasLengths hashBlock submitted hash payloadLen recordLen) (subset : submitted ⊆ more) :
    HasLengths hashBlock more hash payloadLen recordLen := by
  rcases sized with ⟨block, listed, rest⟩
  exact ⟨block, subset listed, rest⟩

/-- While a group adds to a segment, its row does not count `extra` yet, and its records may reach
to `stop`. -/
structure Tallying (hashBlock : Bytes → RawHash) (submitted : List Bytes) (index : BlockIndex)
    (target stop : Nat) (extra : Tally) : Prop where
  hashes : index.blocks.Pairwise fun first second => first.hash ≠ second.hash
  tallied : ∀ row ∈ index.segments,
    row.live.add (if row.segmentId = target then extra else Tally.zero) =
      tallyIn row.segmentId index.blocks
  lengths : ∀ row ∈ index.blocks,
    HasLengths hashBlock submitted row.hash row.payloadLen row.recordLen
  ends : ∀ block ∈ index.blocks, ∀ row ∈ index.segments, row.segmentId = block.segmentId →
    block.recordOffset + block.recordLen ≤ if row.segmentId = target then stop else row.durableEnd

/-- Every segment row counts what is mapped into its segment, and every record ends in it. -/
structure Exact (hashBlock : Bytes → RawHash) (submitted : List Bytes) (index : BlockIndex) :
    Prop where
  tallied : ∀ row ∈ index.segments, row.live = tallyIn row.segmentId index.blocks
  lengths : ∀ row ∈ index.blocks,
    HasLengths hashBlock submitted row.hash row.payloadLen row.recordLen
  ends : ∀ block ∈ index.blocks, ∀ row ∈ index.segments, row.segmentId = block.segmentId →
    block.recordOffset + block.recordLen ≤ row.durableEnd

theorem exact_empty : Exact hashBlock submitted BlockIndex.empty where
  tallied := fun _ none => absurd none not_mem_nil
  lengths := fun _ none => absurd none not_mem_nil
  ends := fun _ none => absurd none not_mem_nil

section

variable (exact : Exact hashBlock submitted index)

include exact

theorem Exact.ends_updateSegment {segmentId : Nat}
    {change : SegmentRow → SegmentRow} {blocks : List BlockRow} (fewer : blocks ⊆ index.blocks)
    (same : ∀ row, (change row).segmentId = row.segmentId ∧
      (change row).durableEnd = row.durableEnd) :
    ∀ block ∈ blocks, ∀ row ∈ (index.updateSegment segmentId change).segments,
      row.segmentId = block.segmentId → block.recordOffset + block.recordLen ≤ row.durableEnd := by
  intro block mapped row member inside
  rcases mem_updateSegment.mp member with ⟨old, listed, rfl⟩
  have within := exact.ends block (fewer mapped) old listed
  split at inside
  · rename_i here
    rw [if_pos here, (same old).2]
    rw [(same old).1] at inside
    exact within inside
  · rename_i elsewhere
    rw [if_neg elsewhere]
    exact within inside

theorem Exact.restate {segmentId : Nat}
    {change : SegmentRow → SegmentRow} (same : ∀ row, (change row).segmentId = row.segmentId ∧
      (change row).live = row.live ∧ (change row).durableEnd = row.durableEnd) :
    Exact hashBlock submitted (index.updateSegment segmentId change) := by
  refine ⟨?_, exact.lengths, ?_⟩
  · intro row member
    rcases mem_updateSegment.mp member with ⟨old, listed, rfl⟩
    split
    · rw [(same old).1, (same old).2.1]
      exact exact.tallied old listed
    · exact exact.tallied old listed
  · exact exact.ends_updateSegment (List.Subset.refl _) fun row => ⟨(same row).1, (same row).2.2⟩

theorem Exact.setSegmentState (segmentId : Nat)
    (state : SegmentState) : Exact hashBlock submitted (index.setSegmentState segmentId state) :=
  exact.restate fun _ => ⟨rfl, rfl, rfl⟩

theorem Exact.retireEmptySegment (segmentId : Nat) :
    Exact hashBlock submitted (index.retireEmptySegment segmentId) := by
  apply exact.restate
  intro row
  rw [retireEmpty]
  split
  · exact ⟨rfl, rfl, rfl⟩
  · exact ⟨rfl, rfl, rfl⟩

theorem Exact.sealAll (sealed : List Nat) :
    Exact hashBlock submitted (index.sealAll sealed) := by
  rw [BlockIndex.sealAll]
  induction sealed generalizing index with
  | nil => exact exact
  | cons segmentId sealed induction =>
    apply induction
    apply exact.restate
    intro row
    split
    · exact ⟨rfl, rfl, rfl⟩
    · exact ⟨rfl, rfl, rfl⟩

theorem Exact.retireAll (sources : List Nat) :
    Exact hashBlock submitted (sources.foldl BlockIndex.retireEmptySegment index) := by
  induction sources generalizing index with
  | nil => exact exact
  | cons source sources induction => exact induction (exact.retireEmptySegment source)

end

/-! ## Removal -/

section

variable (exact : Exact hashBlock submitted index)

include exact

theorem Exact.removeBlock (coherent : Coherent index)
    (hash : RawHash) : Exact hashBlock submitted (index.removeBlock hash) := by
  rw [BlockIndex.removeBlock]
  split
  · exact exact
  · rename_i found lookup
    rcases Coherent.mem_of_lookupRow lookup with ⟨mapped, rfl⟩
    refine ⟨?_, ?_, ?_⟩
    · intro row member
      rcases mem_updateSegment.mp member with ⟨old, listed, rfl⟩
      have sums := tallyIn_filter_hash coherent.hashes mapped old.segmentId
      have before := exact.tallied old listed
      rw [← sums] at before
      rw [apply_ite segmentId, ite_self]
      split
      · rename_i inside
        rw [if_pos inside.symm] at before
        dsimp only
        rw [before, add_sub_cancel]
        rfl
      · rename_i outside
        rw [if_neg (Ne.symm outside), add_zero] at before
        exact before
    · intro row member
      exact exact.lengths row (mem_filter.mp member).1
    · exact exact.ends_updateSegment (filter_subset_self _) fun _ => ⟨rfl, rfl⟩

theorem Exact.removeBlocks (coherent : Coherent index)
    (hashes : List RawHash) : Exact hashBlock submitted (index.removeBlocks hashes) := by
  rw [BlockIndex.removeBlocks]
  induction hashes generalizing index with
  | nil => exact exact
  | cons hash hashes induction =>
    exact induction (exact.removeBlock coherent hash) (coherent.removeBlock hash)

theorem Exact.forgetSegment (segmentId : Nat) :
    Exact hashBlock submitted (index.forgetSegment segmentId) := by
  refine ⟨?_, ?_, ?_⟩
  · intro row member
    rcases mem_filter.mp member with ⟨listed, kept⟩
    rw [exact.tallied row listed]
    symm
    apply tallyIn_filter_of_kept
    intro block _ inside
    rw [inside]
    exact kept
  · exact fun row member => exact.lengths row (mem_filter.mp member).1
  · exact fun block mapped row member =>
      exact.ends block (mem_filter.mp mapped).1 row (mem_filter.mp member).1

theorem Exact.dropSegmentMappings (segmentId : Nat) :
    Exact hashBlock submitted (index.dropSegmentMappings segmentId) := by
  refine ⟨?_, ?_, ?_⟩
  · intro row member
    rcases mem_updateSegment.mp member with ⟨old, listed, rfl⟩
    split
    · rename_i here
      symm
      apply tallyIn_of_unmapped
      intro block mapped inside
      exact of_decide_eq_true (mem_filter.mp mapped).2 (inside.trans here)
    · rename_i elsewhere
      rw [exact.tallied old listed]
      symm
      apply tallyIn_filter_of_kept
      intro block _ inside
      exact decide_eq_true fun same => elsewhere (inside.symm.trans same)
  · exact fun row member => exact.lengths row (mem_filter.mp member).1
  · exact exact.ends_updateSegment (filter_subset_self _) fun _ => ⟨rfl, rfl⟩

theorem Exact.repairSegmentToLength
    (segmentId fileLen : Nat) :
    Exact hashBlock submitted (index.repairSegmentToLength segmentId fileLen) := by
  refine ⟨?_, ?_, ?_⟩
  · intro row member
    rcases mem_updateSegment.mp member with ⟨old, listed, rfl⟩
    split
    · rename_i here
      dsimp only
      rw [here]
      rfl
    · rename_i elsewhere
      rw [exact.tallied old listed]
      symm
      apply tallyIn_filter_of_kept
      intro block _ inside
      exact decide_eq_true fun both => elsewhere (inside.symm.trans both.1)
  · exact fun row member => exact.lengths row (mem_filter.mp member).1
  · intro block mapped row member inside
    rcases mem_updateSegment.mp member with ⟨old, listed, rfl⟩
    have within := exact.ends block (mem_filter.mp mapped).1 old listed
    split at inside
    · rename_i here
      rw [if_pos here]
      dsimp only at inside ⊢
      have ends : block.recordOffset + block.recordLen ∈
          ((index.blocks.filter fun row =>
            ¬(row.segmentId = segmentId ∧ fileLen < row.recordOffset + row.recordLen)).filter
              fun row => row.segmentId = segmentId).map
            fun row => row.recordOffset + row.recordLen :=
        mem_map.mpr ⟨block, mem_filter.mpr
          ⟨mapped, decide_eq_true (inside.symm.trans here)⟩, rfl⟩
      rw [if_neg]
      · exact le_greatest ends
      · intro empty
        rw [isEmpty_iff.mp empty] at ends
        cases ends
    · rename_i elsewhere
      rw [if_neg elsewhere]
      exact within inside

end

/-! ## Groups -/

section Groups

variable {target stop : Nat} {extra tally : Tally} {append : SegmentAppend}
  {appends : List SegmentAppend}

/-- The rows a group brings: with the lengths of blocks that were put, and ending where the group
ends or before. -/
structure Brings (hashBlock : Bytes → RawHash) (submitted : List Bytes) (append : SegmentAppend) :
    Prop where
  lengths : ∀ block ∈ append.blocks,
    HasLengths hashBlock submitted block.hash block.payloadLen block.recordLen
  ends : ∀ block ∈ append.blocks, block.recordOffset + block.recordLen ≤ append.durableEnd

theorem Exact.openSegment (exact : Exact hashBlock submitted index) (coherent : Coherent index)
    (append : SegmentAppend) : Exact hashBlock submitted (index.openSegment append) := by
  rw [BlockIndex.openSegment]
  split
  · rw [BlockIndex.insertSegment]
    split
    · exact exact
    · rename_i absent
      have unmapped : ∀ block ∈ index.blocks, block.segmentId ≠ append.segmentId := by
        intro block mapped inside
        rcases coherent.housed block mapped with ⟨row, listed, houses⟩
        exact absent (any_eq_true.mpr ⟨row, listed, decide_eq_true (houses.1.trans inside)⟩)
      refine ⟨?_, exact.lengths, ?_⟩
      · exact forall_mem_concat exact.tallied ((tallyIn_of_unmapped unmapped).symm)
      · intro block mapped row member inside
        rcases mem_append.mp member with old | new
        · exact exact.ends block mapped row old inside
        · rw [mem_singleton.mp new] at inside
          exact absurd inside.symm (unmapped block mapped)
  · exact exact

theorem Exact.tallying (exact : Exact hashBlock submitted index) (coherent : Coherent index)
    (grows : ∀ row ∈ index.segments, row.segmentId = target → row.durableEnd ≤ stop) :
    Tallying hashBlock submitted index target stop Tally.zero where
  hashes := coherent.hashes
  tallied := by
    intro row member
    rw [ite_self, add_zero]
    exact exact.tallied row member
  lengths := exact.lengths
  ends := by
    intro block mapped row member inside
    have within := exact.ends block mapped row member inside
    split
    · rename_i here
      exact Nat.le_trans within (grows row member here)
    · exact within

theorem Tallying.credit (tallying : Tallying hashBlock submitted index target stop tally) :
    Exact hashBlock submitted (index.credit target stop tally) := by
  refine ⟨?_, tallying.lengths, ?_⟩
  · intro row member
    rcases mem_updateSegment.mp member with ⟨old, listed, rfl⟩
    have before := tallying.tallied old listed
    split
    · rename_i here
      rw [if_pos here] at before
      exact before
    · rename_i elsewhere
      rw [if_neg elsewhere, add_zero] at before
      exact before
  · intro block mapped row member inside
    rcases mem_updateSegment.mp member with ⟨old, listed, rfl⟩
    have within := tallying.ends block mapped old listed
    split at inside
    · rename_i here
      rw [if_pos here] at within ⊢
      exact within inside
    · rename_i elsewhere
      rw [if_neg elsewhere] at within ⊢
      exact within inside

theorem Tallying.insertNewBlocks
    (tallying : Tallying hashBlock submitted index target stop extra) {blocks : List NewBlockRow}
    (lengths : ∀ block ∈ blocks,
      HasLengths hashBlock submitted block.hash block.payloadLen block.recordLen)
    (ends : ∀ block ∈ blocks, block.recordOffset + block.recordLen ≤ stop) :
    Tallying hashBlock submitted
      { index with blocks := (Segments.insertNewBlocks target index.blocks blocks).1 } target stop
      (extra.add (Segments.insertNewBlocks target index.blocks blocks).2) := by
  induction blocks generalizing index extra with
  | nil =>
    rw [Segments.insertNewBlocks, add_zero]
    exact tallying
  | cons block blocks induction =>
    have laterLengths := fun other member => lengths other (.tail block member)
    have laterEnds := fun other member => ends other (.tail block member)
    rw [Segments.insertNewBlocks]
    split
    · exact induction tallying laterLengths laterEnds
    · rename_i fresh
      have inserted : Tallying hashBlock submitted
          { index with blocks := index.blocks ++ [block.inSegment target] } target stop
          (extra.add (one block.payloadLen block.recordLen)) := by
        refine ⟨?_, ?_, ?_, ?_⟩
        · apply pairwise_append.mpr
          refine ⟨tallying.hashes, pairwise_singleton _ _, ?_⟩
          intro first member second new same
          rw [mem_singleton.mp new] at same
          exact fresh (any_eq_true.mpr ⟨first, member, decide_eq_true same⟩)
        · intro row member
          have before := tallying.tallied row member
          dsimp only
          rw [tallyIn_append, ← before, tallyIn_cons]
          change _ = (row.live.add _).add
            ((if target = row.segmentId then one block.payloadLen block.recordLen
              else zero).add zero)
          rw [add_zero]
          split
          · rename_i here
            rw [if_pos here.symm]
            ext <;> simp only [add] <;> omega
          · rename_i elsewhere
            rw [if_neg (Ne.symm elsewhere), add_zero, add_zero]
        · exact forall_mem_concat tallying.lengths (lengths block mem_cons_self)
        · intro other member row listed inside
          rcases mem_append.mp member with old | new
          · exact tallying.ends other old row listed inside
          · rw [mem_singleton.mp new] at inside ⊢
            have isTarget : row.segmentId = target := inside
            rw [if_pos isTarget]
            exact ends block mem_cons_self
      have rest := induction inserted laterLengths laterEnds
      rw [add_assoc] at rest
      exact rest

theorem lengths_follow {source : BlockRow} {block : NewBlockRow} :
    (BlockRow.follow target block source).hash = source.hash ∧
      (BlockRow.follow target block source).payloadLen = source.payloadLen ∧
      (BlockRow.follow target block source).recordLen = source.recordLen := by
  rw [BlockRow.follow]
  split
  · exact ⟨rfl, rfl, rfl⟩
  · exact ⟨rfl, rfl, rfl⟩

theorem Tallying.repointBlock (free : CollisionFree hashBlock submitted)
    (tallying : Tallying hashBlock submitted index target stop extra) {block : NewBlockRow}
    (lengths : HasLengths hashBlock submitted block.hash block.payloadLen block.recordLen)
    (ends : block.recordOffset + block.recordLen ≤ stop) :
    Tallying hashBlock submitted (index.repointBlock target block).1 target stop
      (extra.add (index.repointBlock target block).2) := by
  unfold BlockIndex.repointBlock
  split
  · rw [add_zero]
    exact tallying
  · rename_i source lookup
    rcases Coherent.mem_of_lookupRow lookup with ⟨mapped, same⟩
    -- The copy has the lengths of the block it was made of.
    have agree : ∀ row ∈ index.blocks, row.hash = block.hash →
        row.payloadLen = block.payloadLen ∧ row.recordLen = block.recordLen := by
      intro row listed isBlock
      exact (tallying.lengths row listed).unique free (isBlock ▸ lengths)
    have tally : source.tally = one block.payloadLen block.recordLen := by
      rw [BlockRow.tally, (agree source mapped same).1, (agree source mapped same).2]
    refine ⟨?_, ?_, ?_, ?_⟩
    · change (List.map _ _).Pairwise _
      rw [pairwise_map]
      apply tallying.hashes.imp
      intro first second differ
      rw [hash_follow, hash_follow]
      exact differ
    · intro row member
      rcases mem_updateSegment.mp member with ⟨old, listed, rfl⟩
      have before := tallying.tallied old listed
      have moved := @tallyIn_follow index.blocks target source block tallying.hashes mapped same
        old.segmentId
      rw [← before, tally] at moved
      have first := congrArg blocks moved
      have second := congrArg payloadBytes moved
      have third := congrArg recordBytes moved
      rw [apply_ite segmentId, ite_self]
      change _ = tallyIn old.segmentId (index.blocks.map (BlockRow.follow target block))
      simp only [@eq_comm _ source.segmentId, @eq_comm _ target] at first second third
      split_ifs at first second third ⊢ <;>
        simp only [add, sub, zero] at first second third ⊢ <;>
          ext <;> dsimp only <;> omega
    · intro row member
      rcases mem_map.mp member with ⟨old, listed, rfl⟩
      rw [lengths_follow.1, lengths_follow.2.1, lengths_follow.2.2]
      exact tallying.lengths old listed
    · intro row member house listed inside
      rcases mem_updateSegment.mp listed with ⟨old, there, rfl⟩
      have within : row.recordOffset + row.recordLen ≤
          if old.segmentId = target then stop else old.durableEnd := by
        rw [apply_ite segmentId, ite_self] at inside
        rcases mem_follow member with stayed | ⟨moved, wasMapped, about, rfl⟩
        · exact tallying.ends row stayed old there inside
        · rw [if_pos inside]
          dsimp only
          rw [(agree moved wasMapped about).2]
          exact ends
      split
      · exact within
      · exact within

theorem Tallying.repointRelocatedBlocks (free : CollisionFree hashBlock submitted)
    (tallying : Tallying hashBlock submitted index target stop extra) {blocks : List NewBlockRow}
    (lengths : ∀ block ∈ blocks,
      HasLengths hashBlock submitted block.hash block.payloadLen block.recordLen)
    (ends : ∀ block ∈ blocks, block.recordOffset + block.recordLen ≤ stop) :
    Tallying hashBlock submitted (index.repointRelocatedBlocks target blocks).1 target stop
      (extra.add (index.repointRelocatedBlocks target blocks).2) := by
  induction blocks generalizing index extra with
  | nil =>
    rw [BlockIndex.repointRelocatedBlocks, add_zero]
    exact tallying
  | cons block blocks induction =>
    rw [BlockIndex.repointRelocatedBlocks]
    have first := tallying.repointBlock free (lengths block mem_cons_self)
      (ends block mem_cons_self)
    have rest := induction first
      (fun other member => lengths other (.tail block member))
      (fun other member => ends other (.tail block member))
    rw [add_assoc] at rest
    exact rest

theorem Exact.tallyingOpened (exact : Exact hashBlock submitted index) (coherent : Coherent index)
    (appendable : Appendable index append) :
    Tallying hashBlock submitted (index.openSegment append) append.segmentId append.durableEnd
      Tally.zero := by
  have opened := coherent.openSegment append
  apply (exact.openSegment coherent append).tallying opened
  intro row member here
  rcases appendable.opened with ⟨state, durableEnd, isRow, _, grows⟩
  have same := opened.row_unique isRow ⟨row, member, here, rfl, rfl⟩
  rw [← same.2]
  exact grows

theorem Exact.applyAppend (exact : Exact hashBlock submitted index) (coherent : Coherent index)
    (appendable : Appendable index append) (brings : Brings hashBlock submitted append) :
    Exact hashBlock submitted (index.applyAppend append) := by
  have inserted := (exact.tallyingOpened coherent appendable).insertNewBlocks brings.lengths
    brings.ends
  rw [zero_add] at inserted
  exact inserted.credit

theorem Exact.applyRelocation (free : CollisionFree hashBlock submitted)
    (exact : Exact hashBlock submitted index) (coherent : Coherent index)
    (appendable : Appendable index append) (brings : Brings hashBlock submitted append) :
    Exact hashBlock submitted (index.applyRelocation append) := by
  have moved := (exact.tallyingOpened coherent appendable).repointRelocatedBlocks free
    brings.lengths brings.ends
  rw [zero_add] at moved
  exact moved.credit

theorem Exact.applyAppends (exact : Exact hashBlock submitted index) (coherent : Coherent index)
    (plannable : Plannable index appends)
    (brings : ∀ append ∈ appends, Brings hashBlock submitted append) :
    Exact hashBlock submitted (appends.foldl BlockIndex.applyAppend index) := by
  induction appends generalizing index with
  | nil => exact exact
  | cons append appends induction =>
    have first := plannable.appendable append mem_cons_self
    exact induction (exact.applyAppend coherent first (brings append mem_cons_self))
      (coherent.applyAppend first) (plannable.rest applies_applyAppend)
      fun later listed => brings later (.tail append listed)

theorem Exact.applyRelocations (free : CollisionFree hashBlock submitted)
    (exact : Exact hashBlock submitted index) (coherent : Coherent index)
    (plannable : Plannable index appends)
    (copies : ∀ append ∈ appends, Copies index append.blocks)
    (brings : ∀ append ∈ appends, Brings hashBlock submitted append) :
    Exact hashBlock submitted (appends.foldl BlockIndex.applyRelocation index) := by
  induction appends generalizing index with
  | nil => exact exact
  | cons append appends induction =>
    have first := plannable.appendable append mem_cons_self
    apply induction (exact.applyRelocation free coherent first (brings append mem_cons_self))
      (coherent.applyRelocation first (copies append mem_cons_self))
      (plannable.rest applies_applyRelocation)
    · intro later listed
      exact (copies later (.tail append listed)).applyRelocation append
    · exact fun later listed => brings later (.tail append listed)

theorem Exact.commitPlan (free : CollisionFree hashBlock submitted)
    (exact : Exact hashBlock submitted index) (coherent : Coherent index) (plan : GroupCommitPlan)
    (plannable : Plannable (index.sealAll plan.sealed) plan.appends)
    (copies : ∀ append ∈ plan.appends, Copies index append.blocks)
    (brings : ∀ append ∈ plan.appends, Brings hashBlock submitted append) (kind : GroupKind) :
    Exact hashBlock submitted (Segments.commitPlan index plan kind) := by
  have sealed := exact.sealAll plan.sealed
  have coherentSealed := coherent.sealAll plan.sealed
  cases kind with
  | ingest =>
    have made := sealed.applyAppends coherentSealed plannable brings
    exact ⟨made.tallied, made.lengths, made.ends⟩
  | relocation compaction sources =>
    have sized : ∀ append ∈ plan.appends,
        Copies (index.sealAll plan.sealed) append.blocks := by
      intro append member
      rw [Copies, blocks_sealAll]
      exact copies append member
    have made := (sealed.applyRelocations free coherentSealed plannable sized brings).retireAll
      sources
    exact ⟨made.tallied, made.lengths, made.ends⟩

end Groups

/-! ## A group on its way -/

section Steps

variable {limits : GroupCommitLimits} {segments : Nat} {group after : GroupState} {leader : Leader}
  {event : Event} {frame : RecordFrame} {batch : OpenBatch} {batches : List OpenBatch}

def Submitted (hashBlock : Bytes → RawHash) (submitted : List Bytes) (frame : RecordFrame) : Prop :=
  frame.payload ∈ submitted ∧ hashBlock frame.payload = frame.hash

def OpenBatch.Brings (hashBlock : Bytes → RawHash) (submitted : List Bytes) (batch : OpenBatch) :
    Prop :=
  ∀ row ∈ batch.rows, HasLengths hashBlock submitted row.hash row.payloadLen row.recordLen ∧
    row.recordOffset + row.recordLen ≤ batch.nextOffset

def Phase.Brings (hashBlock : Bytes → RawHash) (submitted : List Bytes) : Phase → Prop
  | .layOut rest batches _ => (∀ frame ∈ rest, Submitted hashBlock submitted frame) ∧
      ∀ batch ∈ batches, batch.Brings hashBlock submitted
  | .append done rest _ => ∀ batch ∈ done ++ rest, batch.Brings hashBlock submitted
  | .sync done rest _ => ∀ batch ∈ done ++ rest, batch.Brings hashBlock submitted
  | .record batches _ => ∀ batch ∈ batches, batch.Brings hashBlock submitted
  | .undo _ _ => True
  | .answer => True

theorem OpenBatch.Brings.stage (brings : batch.Brings hashBlock submitted)
    (isSubmitted : Submitted hashBlock submitted frame) (addedAt : Int) :
    (batch.stage addedAt frame).Brings hashBlock submitted := by
  intro row member
  rw [nextOffset_stage]
  rcases mem_append.mp member with before | last
  · rcases brings row before with ⟨lengths, ends⟩
    exact ⟨lengths, Nat.le_trans ends (Nat.le_add_right _ _)⟩
  · rw [mem_singleton.mp last]
    refine ⟨⟨frame.payload, isSubmitted.1, isSubmitted.2, rfl, rfl⟩, ?_⟩
    rw [frame.len_eq]
    exact Nat.le_refl _

theorem brings_stageLast (brings : ∀ batch ∈ batches, batch.Brings hashBlock submitted)
    (isSubmitted : Submitted hashBlock submitted frame) (addedAt : Int) :
    ∀ batch ∈ stageLast addedAt frame batches, batch.Brings hashBlock submitted := by
  intro later member
  rcases mem_stageLast member with ⟨old, listed, rfl | rfl⟩
  · exact brings later listed
  · exact (brings old listed).stage isSubmitted addedAt

/-- The leader and what it brings, if there is one. -/
def GroupState.Brings (hashBlock : Bytes → RawHash) (submitted : List Bytes) (group : GroupState) :
    Prop :=
  ∀ leader, group.leader = some leader → leader.phase.Brings hashBlock submitted

theorem GroupState.brings_of (leads : group.leader = some leader)
    (brings : leader.phase.Brings hashBlock submitted) : group.Brings hashBlock submitted := by
  intro other same
  rw [leads] at same
  cases same
  exact brings

theorem brings_layOut {rest : List RecordFrame} {sealed : List Nat} {outcome : CreateOutcome}
    (isSubmitted : ∀ record ∈ frame :: rest, Submitted hashBlock submitted record)
    (brings : ∀ batch ∈ batches, batch.Brings hashBlock submitted)
    (made : group.layOut limits leader frame rest batches sealed outcome = some after) :
    after.index = group.index ∧ after.Brings hashBlock submitted := by
  have here := isSubmitted frame mem_cons_self
  have later := fun record member => isSubmitted record (mem_cons_of_mem frame member)
  have opened : ∀ opening : OpenBatch, opening.rows = [] →
      ∀ batch ∈ stageLast leader.addedAt frame (batches ++ [opening]),
        batch.Brings hashBlock submitted := by
    intro opening empty
    apply brings_stageLast _ here
    refine forall_mem_concat brings ?_
    intro row listed
    rw [empty] at listed
    cases listed
  have broken : ∀ leads, leader.creationFailed batches = some leads →
      leads.phase.Brings hashBlock submitted := by
    intro leads failed
    rw [Leader.creationFailed] at failed
    split at failed
    · cases failed
      trivial
    · cases failed
  unfold layOut at made
  dsimp only at made
  generalize rollsOver limits leader.kind group.writer batches frame.len = rollOver at made
  split at made
  · split at made
    · cases made
      exact ⟨rfl, brings_of rfl ⟨later, opened _ rfl⟩⟩
    · split at made
      · cases made
      · cases made
        refine ⟨rfl, ?_⟩
        intro leads same
        cases outcome with
        | created viaStage =>
          cases same
          exact ⟨later, opened _ rfl⟩
        | failed => exact broken leads same
        | leftStaged => exact broken leads same
        | leftUnpublished header => exact broken leads same
  · cases made
    exact ⟨rfl, brings_of rfl ⟨later, brings_stageLast brings here leader.addedAt⟩⟩

variable {done rest : List OpenBatch} {sealed : List Nat}

theorem brings_append {results : List (List Nat)}
    (brings : ∀ other ∈ done ++ batch :: rest, other.Brings hashBlock submitted)
    (made : group.append segments leader done batch rest sealed results = some after) :
    after.index = group.index ∧ after.Brings hashBlock submitted := by
  unfold append at made
  dsimp only at made
  split at made
  · cases made
    refine ⟨rfl, brings_of rfl ?_⟩
    dsimp only
    split
    · -- What was staged is now below the end of the file.
      intro other member
      rw [append_assoc, singleton_append] at member
      rcases mem_append.mp member with before | behind
      · exact brings other (mem_append_left _ before)
      · rcases mem_cons.mp behind with rfl | later
        · exact brings batch (mem_append_right _ mem_cons_self)
        · exact brings other (mem_append_right _ (.tail _ later))
    · trivial
  · cases made

theorem brings_sync {synced : Bool}
    (brings : ∀ other ∈ done ++ batch :: rest, other.Brings hashBlock submitted) :
    (group.sync leader done batch rest sealed synced).index = group.index ∧
      (group.sync leader done batch rest sealed synced).Brings hashBlock submitted := by
  rw [sync]
  split
  · refine ⟨rfl, brings_of rfl ?_⟩
    intro other member
    rw [append_assoc, singleton_append] at member
    exact brings other member
  · exact ⟨rfl, brings_of rfl trivial⟩

theorem OpenBatch.Brings.toAppend (brings : batch.Brings hashBlock submitted)
    (written : batch.frames = []) : Segments.Brings hashBlock submitted batch.toAppend where
  lengths := fun row listed => (brings row listed).1
  ends := by
    intro row listed
    have ends := (brings row listed).2
    rw [OpenBatch.nextOffset, written] at ends
    exact ends

theorem Exact.move (free : CollisionFree hashBlock submitted)
    (index : IndexSound hashBlock submitted group.index)
    (sound : GroupSound hashBlock submitted group) (leads : group.leader = some leader)
    (exact : Exact hashBlock submitted group.index) (brings : group.Brings hashBlock submitted)
    (move : GroupMove limits segments group leader event after) :
    Exact hashBlock submitted after.index ∧ after.Brings hashBlock submitted := by
  have here := brings leader leads
  cases move with
  | layOut phase made =>
    rw [phase] at here
    rcases brings_layOut here.1 here.2 made with ⟨same, next⟩
    exact ⟨same ▸ exact, next⟩
  | @laidOut batches sealed phase =>
    rw [phase] at here
    exact ⟨exact, brings_of rfl here.2⟩
  | @appended done sealed phase =>
    rw [phase, Phase.Brings, append_nil] at here
    exact ⟨exact, brings_of rfl here⟩
  | @synced done sealed phase =>
    rw [phase, Phase.Brings, append_nil] at here
    exact ⟨exact, brings_of rfl here⟩
  | append phase made =>
    rw [phase] at here
    rcases brings_append here made with ⟨same, next⟩
    exact ⟨same ▸ exact, next⟩
  | @sync done batch rest sealed synced phase =>
    rw [phase] at here
    have kept := @brings_sync _ _ group leader batch done rest sealed synced here
    exact ⟨kept.1.symm ▸ exact, kept.2⟩
  | @record batches sealed committed phase =>
    have working : group.batches = batches := by
      rw [batches_of leads, phase]
      rfl
    have forward := sound.phase leader leads
    rw [phase] at here forward
    rcases forward with ⟨forward, written⟩
    rw [record]
    split
    · refine ⟨?_, brings_of rfl trivial⟩
      apply exact.commitPlan free index.coherent
      · exact (working ▸ sound.opened).plannable forward.filled written
      · exact forward.filled.copies free index
      · intro append listed
        rcases mem_map.mp listed with ⟨batch, inGroup, rfl⟩
        exact (here batch inGroup).toAppend (written batch inGroup)
    · exact ⟨exact, brings_of rfl trivial⟩
  | @undo batch rest survivor outcome phase =>
    rw [rollBackOne]
    dsimp only
    split
    · split
      · exact ⟨exact, brings_of rfl trivial⟩
      · refine ⟨?_, brings_of rfl trivial⟩
        dsimp only
        split
        · exact exact.setSegmentState batch.writer.segmentId .sealed
        · exact exact
    · exact ⟨exact, brings_of rfl trivial⟩

end Steps

end Yadorilink.Segments
