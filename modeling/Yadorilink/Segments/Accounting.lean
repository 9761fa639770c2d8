import Yadorilink.Foundation.KeyedFold
import Yadorilink.Foundation.Lists
import Yadorilink.Segments.BlockIndex

/-! What every index transaction keeps: each block is mapped once, into a segment that has a row
and below its durable end, and each row counts the blocks mapped into its segment. -/

namespace Yadorilink.Segments

open List Tally SegmentRow

def liveIn (segmentId : Nat) (blocks : List BlockRow) : Nat :=
  blocks.countP fun block => block.segmentId = segmentId

/-! ## Sums -/

section Sums

variable {blocks : List BlockRow} {target : Nat}

theorem Tally.add_zero (tally : Tally) : tally.add Tally.zero = tally := by
  ext <;> simp [add, zero]

theorem Tally.zero_add (tally : Tally) : Tally.zero.add tally = tally := by
  ext <;> simp [add, zero]

theorem Tally.add_assoc (first second third : Tally) :
    (first.add second).add third = first.add (second.add third) := by
  ext <;> simp [add, Int.add_assoc]

theorem Tally.add_sub_cancel (first second : Tally) : (first.add second).sub second = first := by
  ext <;> simp [add, sub]

theorem tallyIn_cons (segmentId : Nat) (block : BlockRow) (blocks : List BlockRow) :
    tallyIn segmentId (block :: blocks) =
      (if block.segmentId = segmentId then block.tally else Tally.zero).add
        (tallyIn segmentId blocks) := by
  rw [tallyIn]
  split
  · rfl
  · rw [zero_add]

theorem tallyIn_append (segmentId : Nat) (first second : List BlockRow) :
    tallyIn segmentId (first ++ second) = (tallyIn segmentId first).add (tallyIn segmentId second) := by
  induction first with
  | nil => exact (zero_add _).symm
  | cons block first induction =>
    rw [cons_append, tallyIn_cons, tallyIn_cons, induction, add_assoc]

theorem tallyIn_filter_of_kept {kept : BlockRow → Bool} {segmentId : Nat}
    (keeps : ∀ block ∈ blocks, block.segmentId = segmentId → kept block = true) :
    tallyIn segmentId (blocks.filter kept) = tallyIn segmentId blocks := by
  induction blocks with
  | nil => rfl
  | cons block blocks induction =>
    have later := induction fun other member => keeps other (.tail _ member)
    rw [filter_cons, tallyIn_cons, ← later]
    split
    · rw [tallyIn_cons]
    · rename_i dropped
      rw [if_neg fun inside => dropped (keeps block mem_cons_self inside), zero_add]

theorem tallyIn_of_unmapped {segmentId : Nat}
    (unmapped : ∀ block ∈ blocks, block.segmentId ≠ segmentId) :
    tallyIn segmentId blocks = Tally.zero := by
  induction blocks with
  | nil => rfl
  | cons block blocks induction =>
    rw [tallyIn, if_neg (unmapped block mem_cons_self)]
    exact induction fun other member => unmapped other (.tail _ member)

theorem split_of_mem {found : BlockRow}
    (distinct : blocks.Pairwise fun first second => first.hash ≠ second.hash)
    (member : found ∈ blocks) : ∃ before after, blocks = before ++ found :: after ∧
      ∀ other ∈ before ++ after, other.hash ≠ found.hash := by
  rcases append_of_mem member with ⟨before, after, rfl⟩
  have apart := (pairwise_middle Ne.symm).mp distinct
  exact ⟨before, after, rfl, fun other listed => Ne.symm (rel_of_pairwise_cons apart listed)⟩

theorem tallyIn_filter_hash {found : BlockRow}
    (distinct : blocks.Pairwise fun first second => first.hash ≠ second.hash)
    (member : found ∈ blocks) (segmentId : Nat) :
    (tallyIn segmentId (blocks.filter fun row => row.hash ≠ found.hash)).add
        (if found.segmentId = segmentId then found.tally else Tally.zero) =
      tallyIn segmentId blocks := by
  rcases split_of_mem distinct member with ⟨before, after, rfl, others⟩
  have kept : (before ++ after).filter (fun row => row.hash ≠ found.hash) = before ++ after :=
    filter_eq_self.mpr fun other listed => decide_eq_true (others other listed)
  rw [filter_append, filter_cons_of_neg (by simp), ← filter_append, kept,
    tallyIn_append, tallyIn_append, tallyIn_cons]
  ext <;> simp only [add] <;> omega

theorem tallyIn_follow {source : BlockRow} {block : NewBlockRow}
    (distinct : blocks.Pairwise fun first second => first.hash ≠ second.hash)
    (member : source ∈ blocks) (same : source.hash = block.hash) (segmentId : Nat) :
    (tallyIn segmentId (blocks.map (BlockRow.follow target block))).add
        (if source.segmentId = segmentId then source.tally else Tally.zero) =
      (tallyIn segmentId blocks).add (if target = segmentId then source.tally else Tally.zero) := by
  rcases split_of_mem distinct member with ⟨before, after, rfl, others⟩
  have kept : (before ++ after).map (BlockRow.follow target block) = before ++ after := by
    refine (map_congr_left fun other listed => ?_).trans (map_id' _)
    exact if_neg (same ▸ others other listed)
  rw [map_append] at kept
  rcases append_inj kept (length_map _) with ⟨keptBefore, keptAfter⟩
  rw [map_append, map_cons, keptBefore, keptAfter, BlockRow.follow, if_pos same]
  simp only [tallyIn_append, tallyIn_cons]
  ext <;> simp only [add, BlockRow.tally] <;> omega

theorem tallyIn_blocks (segmentId : Nat) (blocks : List BlockRow) :
    (tallyIn segmentId blocks).blocks = (liveIn segmentId blocks : Int) := by
  induction blocks with
  | nil => rfl
  | cons block blocks induction =>
    rw [tallyIn, liveIn, countP_cons]
    rw [liveIn] at induction
    split
    · rename_i inside
      rw [if_pos (decide_eq_true inside)]
      change 1 + (tallyIn segmentId blocks).blocks = _
      omega
    · rename_i outside
      rw [if_neg fun inside => outside (of_decide_eq_true inside)]
      exact induction

end Sums

/-- A block's record lies behind the header of its segment and before `stop`. -/
def BlockRow.Within (block : BlockRow) (stop : Nat) : Prop :=
  segmentHeaderLen ≤ block.recordOffset ∧
    block.recordOffset + Segments.recordLen block.payloadLen ≤ stop

/-- The segment a block is mapped into can hold it. -/
def SegmentRow.Houses (row : SegmentRow) (block : BlockRow) : Prop :=
  row.segmentId = block.segmentId ∧ row.state ≠ .retired ∧ block.Within row.durableEnd

structure Coherent (index : BlockIndex) : Prop where
  hashes : index.blocks.Pairwise fun first second => first.hash ≠ second.hash
  segments : index.segments.Pairwise fun first second => first.segmentId ≠ second.segmentId
  counted : ∀ row ∈ index.segments, row.live.blocks = (liveIn row.segmentId index.blocks : Int)
  housed : ∀ block ∈ index.blocks, ∃ row ∈ index.segments, row.Houses block

theorem coherent_empty : Coherent BlockIndex.empty where
  hashes := List.Pairwise.nil
  segments := List.Pairwise.nil
  counted := nofun
  housed := nofun

variable {index : BlockIndex} {segmentId : Nat} {blocks : List BlockRow} {block : BlockRow}
  {row : SegmentRow} {change : SegmentRow → SegmentRow}

theorem liveIn_pos (member : block ∈ blocks) (inside : block.segmentId = segmentId) :
    0 < liveIn segmentId blocks :=
  countP_pos_iff.mpr ⟨block, member, decide_eq_true inside⟩

theorem Coherent.unmapped (coherent : Coherent index) (member : row ∈ index.segments)
    (empty : row.live.blocks = 0) (mapped : block ∈ index.blocks) :
    block.segmentId ≠ row.segmentId := by
  intro inside
  have counted := coherent.counted row member
  have some := liveIn_pos mapped inside
  omega

theorem Coherent.unmapped_of_retired (coherent : Coherent index) (member : row ∈ index.segments)
    (retired : row.state = .retired) (mapped : block ∈ index.blocks) :
    block.segmentId ≠ row.segmentId := by
  intro inside
  obtain ⟨house, listed, houses⟩ := coherent.housed block mapped
  have same := KeyedFold.eq_of_key coherent.segments listed member (houses.1.trans inside)
  exact houses.2.1 (same ▸ retired)

theorem Coherent.mem_of_lookupRow {hash : RawHash} (found : index.lookupRow hash = some block) :
    block ∈ index.blocks ∧ block.hash = hash :=
  ⟨mem_of_find?_eq_some found, of_decide_eq_true (find?_some found :)⟩

theorem mem_of_segment (found : index.segment segmentId = some row) :
    row ∈ index.segments ∧ row.segmentId = segmentId :=
  ⟨mem_of_find?_eq_some found, of_decide_eq_true (find?_some found :)⟩

/-! ## Rows changed in place -/

theorem mem_updateSegment : row ∈ (index.updateSegment segmentId change).segments ↔
      ∃ old ∈ index.segments, (if old.segmentId = segmentId then change old else old) = row := by
  rw [BlockIndex.updateSegment, mem_map]

section

variable (coherent : Coherent index)

include coherent

theorem Coherent.update {next : Option Nat}
    (names : ∀ row, (change row).segmentId = row.segmentId)
    (hashes : blocks.Pairwise fun first second => first.hash ≠ second.hash)
    (changed : ∀ row ∈ index.segments, row.segmentId = segmentId →
      (change row).live.blocks = (liveIn segmentId blocks : Int))
    (others : ∀ other, other ≠ segmentId → liveIn other blocks = liveIn other index.blocks)
    (housed : ∀ block ∈ blocks, ∃ row ∈ index.segments,
      if row.segmentId = segmentId then (change row).Houses block else row.Houses block) :
    Coherent ({ index with blocks := blocks, nextSegmentId := next }.updateSegment segmentId
      change) where
  hashes := hashes
  segments := by
    rw [BlockIndex.updateSegment, pairwise_map]
    apply coherent.segments.imp
    intro first second differ
    have same : ∀ row : SegmentRow,
        (if row.segmentId = segmentId then change row else row).segmentId = row.segmentId := by
      intro row
      split
      · exact names row
      · rfl
    rw [same, same]
    exact differ
  counted := by
    intro row member
    obtain ⟨old, listed, rfl⟩ := mem_updateSegment.mp member
    change _ = (liveIn _ blocks : Int)
    split
    · rename_i this
      rw [names, this]
      exact changed old listed this
    · rename_i other
      rw [others _ other]
      exact coherent.counted old listed
  housed := by
    intro block member
    obtain ⟨row, listed, houses⟩ := housed block member
    refine ⟨_, mem_updateSegment.mpr ⟨row, listed, rfl⟩, ?_⟩
    split
    · rename_i this
      rw [if_pos this] at houses
      exact houses
    · rename_i other
      rw [if_neg other] at houses
      exact houses

theorem Coherent.updateState
    (names : ∀ row, (change row).segmentId = row.segmentId)
    (live : ∀ row, (change row).live = row.live)
    (grows : ∀ row, row.durableEnd ≤ (change row).durableEnd)
    (retires : ∀ row, (change row).state = .retired → row.state = .retired ∨ row.live.blocks = 0) :
    Coherent (index.updateSegment segmentId change) := by
  apply coherent.update names coherent.hashes
  · intro row member this
    rw [live, ← this]
    exact coherent.counted row member
  · exact fun _ _ => rfl
  · intro block member
    obtain ⟨row, listed, houses⟩ := coherent.housed block member
    refine ⟨row, listed, ?_⟩
    split
    · refine ⟨(names row).trans houses.1, ?_, houses.2.2.1,
        Nat.le_trans houses.2.2.2 (grows row)⟩
      intro retired
      rcases retires row retired with before | empty
      · exact houses.2.1 before
      · exact coherent.unmapped listed empty member houses.1.symm
    · exact houses

theorem Coherent.setSegmentState (segmentId : Nat) :
    Coherent (index.setSegmentState segmentId .sealed) := by
  apply coherent.updateState
  · exact fun _ => rfl
  · exact fun _ => rfl
  · exact fun _ => Nat.le_refl _
  · exact fun _ retired => nomatch retired

theorem Coherent.sealSegment (segmentId : Nat) :
    Coherent (index.sealSegment segmentId) := by
  apply coherent.updateState
  · intro row
    split <;> rfl
  · intro row
    split <;> rfl
  · intro row
    split <;> exact Nat.le_refl _
  · intro row retired
    split at retired
    · cases retired
    · exact .inl retired

theorem Coherent.sealAll (sealed : List Nat) :
    Coherent (index.sealAll sealed) := by
  rw [BlockIndex.sealAll]
  induction sealed generalizing index with
  | nil => exact coherent
  | cons segmentId sealed induction => exact induction (coherent.sealSegment segmentId)

theorem Coherent.retireEmptySegment (segmentId : Nat) :
    Coherent (index.retireEmptySegment segmentId) := by
  apply coherent.updateState
  · intro row
    rw [retireEmpty]
    split <;> rfl
  · intro row
    rw [retireEmpty]
    split <;> rfl
  · intro row
    rw [retireEmpty]
    split <;> exact Nat.le_refl _
  · intro row retired
    rw [retireEmpty] at retired
    split at retired
    · rename_i empty
      exact .inr empty.1
    · exact .inl retired

end

/-! ## Removal -/

theorem liveIn_filter_hash {found : BlockRow}
    (distinct : blocks.Pairwise fun first second => first.hash ≠ second.hash)
    (member : found ∈ blocks) (segmentId : Nat) :
    liveIn segmentId blocks =
      liveIn segmentId (blocks.filter fun block => block.hash ≠ found.hash) +
        if found.segmentId = segmentId then 1 else 0 := by
  have counted := congrArg Tally.blocks (tallyIn_filter_hash distinct member segmentId)
  simp only [Tally.add, apply_ite Tally.blocks, tallyIn_blocks] at counted
  simp only [BlockRow.tally, Tally.one, Tally.zero] at counted
  split_ifs at counted ⊢ <;> omega

theorem Coherent.removeBlock (coherent : Coherent index) (hash : RawHash) :
    Coherent (index.removeBlock hash) := by
  rw [BlockIndex.removeBlock]
  split
  · exact coherent
  · rename_i found lookup
    rcases Coherent.mem_of_lookupRow lookup with ⟨member, same⟩
    subst same
    have counts := liveIn_filter_hash coherent.hashes member
    apply coherent.update
    · exact fun _ => rfl
    · exact coherent.hashes.filter _
    · intro row listed this
      have before := coherent.counted row listed
      have here := counts found.segmentId
      rw [if_pos rfl] at here
      rw [this] at before
      change row.live.blocks - 1 = _
      omega
    · intro other differ
      have there := counts other
      rw [if_neg (Ne.symm differ)] at there
      omega
    · intro block kept
      obtain ⟨row, listed, houses⟩ := coherent.housed block (mem_filter.mp kept).1
      refine ⟨row, listed, ?_⟩
      split
      · exact houses
      · exact houses

theorem Coherent.removeBlocks (coherent : Coherent index) (hashes : List RawHash) :
    Coherent (index.removeBlocks hashes) := by
  rw [BlockIndex.removeBlocks]
  induction hashes generalizing index with
  | nil => exact coherent
  | cons hash hashes induction => exact induction (coherent.removeBlock hash)

theorem Coherent.forgetSegment (coherent : Coherent index) (segmentId : Nat) :
    Coherent (index.forgetSegment segmentId) where
  hashes := coherent.hashes.filter _
  segments := coherent.segments.filter _
  counted := by
    intro row member
    rcases mem_filter.mp member with ⟨listed, kept⟩
    have differ : row.segmentId ≠ segmentId := of_decide_eq_true kept
    rw [coherent.counted row listed]
    congr 1
    rw [liveIn, liveIn, BlockIndex.forgetSegment, countP_filter]
    apply countP_congr
    intro block _
    simp only [decide_eq_true_eq, Bool.and_eq_true]
    constructor
    · exact fun inside => ⟨inside, fun same => differ (inside ▸ same)⟩
    · exact And.left
  housed := by
    intro block member
    rcases mem_filter.mp member with ⟨mapped, kept⟩
    have differ : block.segmentId ≠ segmentId := of_decide_eq_true kept
    obtain ⟨row, listed, houses⟩ := coherent.housed block mapped
    refine ⟨row, mem_filter.mpr ⟨listed, decide_eq_true ?_⟩, houses⟩
    rw [houses.1]
    exact differ

/-! ## Adding to a segment

While a group adds to one segment, that segment's row does not count `extra` blocks yet, and its
records may reach to `stop`. -/

structure Adding (index : BlockIndex) (target stop : Nat) (extra : Int) : Prop where
  hashes : index.blocks.Pairwise fun first second => first.hash ≠ second.hash
  segments : index.segments.Pairwise fun first second => first.segmentId ≠ second.segmentId
  counted : ∀ row ∈ index.segments,
    row.live.blocks + (if row.segmentId = target then extra else 0) =
      (liveIn row.segmentId index.blocks : Int)
  housed : ∀ block ∈ index.blocks, ∃ row ∈ index.segments,
    row.segmentId = block.segmentId ∧ row.state ≠ .retired ∧
      block.Within (if row.segmentId = target then stop else row.durableEnd)
  opened : ∃ row ∈ index.segments, row.segmentId = target ∧ row.state ≠ .retired

variable {target stop : Nat} {extra : Int}

theorem Coherent.adding (coherent : Coherent index) (listed : row ∈ index.segments)
    (isTarget : row.segmentId = target) (usable : row.state ≠ .retired)
    (grows : row.durableEnd ≤ stop) : Adding index target stop 0 where
  hashes := coherent.hashes
  segments := coherent.segments
  counted := by
    intro row member
    rw [ite_self, Int.add_zero]
    exact coherent.counted row member
  housed := by
    intro block member
    obtain ⟨house, there, houses⟩ := coherent.housed block member
    refine ⟨house, there, houses.1, houses.2.1, houses.2.2.1, ?_⟩
    split
    · rename_i same
      have isRow := KeyedFold.eq_of_key coherent.segments there listed (same.trans isTarget.symm)
      exact Nat.le_trans houses.2.2.2 (isRow ▸ grows)
    · exact houses.2.2.2
  opened := ⟨row, listed, isTarget, usable⟩

theorem Adding.credit {tally : Tally} (adding : Adding index target stop tally.blocks) :
    Coherent (index.credit target stop tally) where
  hashes := adding.hashes
  segments := by
    rw [BlockIndex.credit, BlockIndex.updateSegment, pairwise_map]
    apply adding.segments.imp
    intro first second differ
    rw [apply_ite segmentId, apply_ite segmentId, ite_self, ite_self]
    exact differ
  counted := by
    intro row member
    obtain ⟨old, listed, rfl⟩ := mem_updateSegment.mp member
    have before := adding.counted old listed
    split
    · rename_i same
      rw [if_pos same] at before
      exact before
    · rename_i other
      rw [if_neg other, Int.add_zero] at before
      exact before
  housed := by
    intro block member
    obtain ⟨row, listed, inside, usable, within⟩ := adding.housed block member
    refine ⟨_, mem_updateSegment.mpr ⟨row, listed, rfl⟩, ?_⟩
    split
    · rename_i same
      rw [if_pos same] at within
      exact ⟨inside, usable, within⟩
    · rename_i other
      rw [if_neg other] at within
      exact ⟨inside, usable, within⟩

theorem liveIn_singleton (segmentId : Nat) (block : BlockRow) :
    liveIn segmentId [block] = if block.segmentId = segmentId then 1 else 0 := by
  rw [liveIn, countP_singleton]
  simp only [decide_eq_true_eq]

theorem Adding.insert (adding : Adding index target stop extra) {block : NewBlockRow}
    (fresh : ¬(index.blocks.any fun row => row.hash = block.hash) = true)
    (within : (block.inSegment target).Within stop) :
    Adding { index with blocks := index.blocks ++ [block.inSegment target] } target stop
      (extra + 1) where
  hashes := by
    apply pairwise_append.mpr
    refine ⟨adding.hashes, pairwise_singleton _ _, ?_⟩
    intro first member second new same
    rw [mem_singleton.mp new] at same
    exact fresh (any_eq_true.mpr ⟨first, member, decide_eq_true same⟩)
  segments := adding.segments
  counted := by
    intro row member
    have before := adding.counted row member
    rw [liveIn, countP_append, ← liveIn, ← liveIn, liveIn_singleton]
    change _ = ((_ + if target = row.segmentId then 1 else 0 : Nat) : Int)
    split
    · rename_i same
      rw [if_pos same] at before
      rw [if_pos same.symm]
      omega
    · rename_i other
      rw [if_neg other] at before
      rw [if_neg (Ne.symm other)]
      omega
  housed := by
    refine forall_mem_concat adding.housed ?_
    obtain ⟨house, listed, isTarget, usable⟩ := adding.opened
    refine ⟨house, listed, isTarget, usable, ?_⟩
    rw [if_pos isTarget]
    exact within
  opened := adding.opened

theorem Adding.insertNewBlocks (adding : Adding index target stop extra) {blocks : List NewBlockRow}
    (within : ∀ block ∈ blocks, (block.inSegment target).Within stop) :
    Adding { index with blocks := (Segments.insertNewBlocks target index.blocks blocks).1 } target
      stop (extra + (Segments.insertNewBlocks target index.blocks blocks).2.blocks) := by
  induction blocks generalizing index extra with
  | nil =>
    rw [Segments.insertNewBlocks, zero, Int.add_zero]
    exact adding
  | cons block blocks induction =>
    have later : ∀ other ∈ blocks, (other.inSegment target).Within stop :=
      fun other member => within other (.tail block member)
    rw [Segments.insertNewBlocks]
    split
    · exact induction adding later
    · rename_i fresh
      have rest := induction (adding.insert fresh (within block (.head _))) later
      rw [Int.add_assoc] at rest
      exact rest

/-! ## Relocation -/

theorem liveIn_follow {blocks : List BlockRow} {source : BlockRow} {block : NewBlockRow}
    (distinct : blocks.Pairwise fun first second => first.hash ≠ second.hash)
    (member : source ∈ blocks) (same : source.hash = block.hash) (segmentId : Nat) :
    liveIn segmentId (blocks.map (BlockRow.follow target block)) +
        (if source.segmentId = segmentId then 1 else 0) =
      liveIn segmentId blocks + if target = segmentId then 1 else 0 := by
  have counted := congrArg Tally.blocks
    (@tallyIn_follow blocks target _ _ distinct member same segmentId)
  simp only [Tally.add, apply_ite Tally.blocks, tallyIn_blocks, BlockRow.tally, Tally.one,
    Tally.zero] at counted
  split_ifs at counted ⊢ <;> omega

theorem mem_follow {block : NewBlockRow} {row : BlockRow}
    (member : row ∈ blocks.map (BlockRow.follow target block)) :
    row ∈ blocks ∨ ∃ old ∈ blocks, old.hash = block.hash ∧
      row = { old with segmentId := target, recordOffset := block.recordOffset } := by
  obtain ⟨old, listed, rfl⟩ := mem_map.mp member
  rw [BlockRow.follow]
  split
  · rename_i same
    exact .inr ⟨old, listed, same, rfl⟩
  · exact .inl listed

theorem hash_follow (block : NewBlockRow) (row : BlockRow) :
    (BlockRow.follow target block row).hash = row.hash := by
  rw [BlockRow.follow]
  split <;> rfl

theorem payloadLen_follow (block : NewBlockRow) (row : BlockRow) :
    (BlockRow.follow target block row).payloadLen = row.payloadLen := by
  rw [BlockRow.follow]
  split <;> rfl

theorem Adding.repointBlock (adding : Adding index target stop extra) {block : NewBlockRow}
    (sized : ∀ row ∈ index.blocks, row.hash = block.hash → row.payloadLen = block.payloadLen)
    (within : (block.inSegment target).Within stop) :
    Adding (index.repointBlock target block).1 target stop
      (extra + (index.repointBlock target block).2.blocks) := by
  unfold BlockIndex.repointBlock
  split
  · rw [zero, Int.add_zero]
    exact adding
  · rename_i source lookup
    rcases Coherent.mem_of_lookupRow lookup with ⟨member, same⟩
    have counts := @liveIn_follow target _ _ _ adding.hashes member same
    exact {
      hashes := by
        change (List.map _ _).Pairwise _
        rw [pairwise_map]
        apply adding.hashes.imp
        intro first second differ
        rw [hash_follow, hash_follow]
        exact differ
      segments := by
        apply pairwise_map.mpr
        apply adding.segments.imp
        intro first second differ
        rw [apply_ite segmentId, apply_ite segmentId, ite_self, ite_self]
        exact differ
      counted := by
        intro row listed
        obtain ⟨old, there, rfl⟩ := mem_updateSegment.mp listed
        have before := adding.counted old there
        have moved := counts old.segmentId
        rw [apply_ite segmentId, ite_self]
        change _ + (if old.segmentId = target then extra + 1 else 0) =
          (liveIn old.segmentId (index.blocks.map (BlockRow.follow target block)) : Int)
        simp only [@eq_comm _ source.segmentId, @eq_comm _ target] at moved
        split_ifs at before moved ⊢ <;> try change old.live.blocks - 1 + _ = _
        all_goals omega
      housed := by
        intro row listed
        have house : ∃ house ∈ index.segments,
            house.segmentId = row.segmentId ∧ house.state ≠ .retired ∧
              row.Within (if house.segmentId = target then stop else house.durableEnd) := by
          rcases mem_follow listed with old | ⟨old, there, about, rfl⟩
          · exact adding.housed row old
          · obtain ⟨house, opened, isTarget, usable⟩ := adding.opened
            refine ⟨house, opened, isTarget, usable, within.1, ?_⟩
            rw [if_pos isTarget]
            change block.recordOffset + recordLen old.payloadLen ≤ stop
            rw [sized old there about]
            exact within.2
        obtain ⟨house, opened, inside, usable, fits⟩ := house
        refine ⟨_, mem_updateSegment.mpr ⟨house, opened, rfl⟩, ?_⟩
        split
        · exact ⟨inside, usable, fits⟩
        · exact ⟨inside, usable, fits⟩
      opened := by
        obtain ⟨house, opened, isTarget, usable⟩ := adding.opened
        refine ⟨_, mem_updateSegment.mpr ⟨house, opened, rfl⟩, ?_⟩
        split
        · exact ⟨isTarget, usable⟩
        · exact ⟨isTarget, usable⟩ }

end Yadorilink.Segments
