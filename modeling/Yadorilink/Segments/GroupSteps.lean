import Yadorilink.Segments.Invariants

/-! Every step of a group keeps the writer and the index in agreement, whichever call fails. -/

namespace Yadorilink.Segments

open GroupState List Option

variable {hashBlock : Bytes → RawHash} {submitted : List Bytes} {index : BlockIndex}
  {next : Nat} {batches changed : List OpenBatch} {batch : OpenBatch} {sealed : List Nat}
  {group : GroupState} {leader : Leader} {frame : RecordFrame} {base : Nat} {after : GroupState}
  {segmentId : Nat} {leads : Leader}

/-- What a step of a group keeps. -/
structure Kept (hashBlock : Bytes → RawHash) (submitted : List Bytes) (before after : GroupState) :
    Prop where
  index : IndexSound hashBlock submitted after.index
  group : GroupSound hashBlock submitted after
  gone : ∀ segmentId, Gone before segmentId → Gone after segmentId

/-! ## Batches that change -/

theorem OpenBatch.From.congr {other : OpenBatch} (same : other.segmentId = batch.segmentId)
    (created : other.created = batch.created) (opens : batch.From index base) :
    other.From index base := by
  rw [OpenBatch.From, same, created]
  exact opens

theorem Opened.change (opened : Opened index next batches)
    (ids : changed.map OpenBatch.segmentId = batches.map OpenBatch.segmentId)
    (grown : ∀ later ∈ changed, ∃ batch ∈ batches, later.segmentId = batch.segmentId ∧
      later.created = batch.created ∧ batch.writer.writeEnd ≤ later.writer.writeEnd) :
    Opened index next changed where
  distinct := by
    rw [ids]
    exact opened.distinct
  below := by
    intro later member
    obtain ⟨batch, listed, same, _⟩ := grown later member
    rw [same]
    exact opened.below batch listed
  bases := by
    intro later member
    obtain ⟨batch, listed, same, created, longer⟩ := grown later member
    obtain ⟨base, opens, headed, behind⟩ := opened.bases batch listed
    exact ⟨base, opens.congr same created, headed, Nat.le_trans behind longer⟩

theorem Opened.sublist (opened : Opened index next batches) (fewer : changed.Sublist batches) :
    Opened index next changed where
  distinct := opened.distinct.sublist (fewer.map _)
  below := fun batch member => opened.below batch (fewer.subset member)
  bases := fun batch member => opened.bases batch (fewer.subset member)

theorem Opened.snoc (opened : Opened index next batches) {later : Nat} (grows : next ≤ later)
    (fresh : batch.segmentId ∉ batches.map OpenBatch.segmentId) (below : batch.segmentId < later)
    (opens : batch.From index base) (headed : segmentHeaderLen ≤ base)
    (behind : base ≤ batch.writer.writeEnd) : Opened index later (batches ++ [batch]) where
  distinct := by
    rw [map_append, map_singleton]
    refine nodup_append.mpr ⟨opened.distinct, pairwise_singleton _ _, ?_⟩
    intro segmentId listed other new same
    rw [same, mem_singleton.mp new] at listed
    exact fresh listed
  below := by
    exact forall_mem_concat (fun other old => Nat.lt_of_lt_of_le (opened.below other old) grows)
      below
  bases := by
    exact forall_mem_concat opened.bases ⟨base, opens, headed, behind⟩

theorem opened_nil (index : BlockIndex) (next : Nat) : Opened index next [] where
  distinct := nodup_nil
  below := nofun
  bases := nofun

/-! ## Staging a record -/

theorem stageLast_append (addedAt : Int) (frame : RecordFrame) (front : List OpenBatch)
    (last : OpenBatch) :
    stageLast addedAt frame (front ++ [last]) = front ++ [last.stage addedAt frame] := by
  induction front with
  | nil => rfl
  | cons first front induction =>
    cases front with
    | nil => rfl
    | cons second front =>
      rw [cons_append, cons_append, stageLast, ← cons_append, induction]
      · rfl
      · exact cons_ne_nil _ _

theorem segmentIds_stageLast (addedAt : Int) (frame : RecordFrame) (batches : List OpenBatch) :
    (stageLast addedAt frame batches).map OpenBatch.segmentId =
      batches.map OpenBatch.segmentId := by
  rcases eq_nil_or_concat batches with rfl | ⟨front, last, rfl⟩
  · rfl
  · rw [concat_eq_append, stageLast_append, map_append, map_append]
    rfl

theorem mem_stageLast {addedAt : Int} {later : OpenBatch}
    (member : later ∈ stageLast addedAt frame batches) :
    ∃ old ∈ batches, later = old ∨ later = old.stage addedAt frame := by
  rcases eq_nil_or_concat batches with rfl | ⟨front, last, rfl⟩
  · cases member
  · rw [concat_eq_append] at member ⊢
    rw [stageLast_append] at member
    rcases mem_append.mp member with old | new
    · exact ⟨later, mem_append_left _ old, .inl rfl⟩
    · exact ⟨last, mem_append_right _ (.head _),
        .inr (mem_singleton.mp new)⟩

theorem stagedBytes_append (first second : List RecordFrame) :
    stagedBytes (first ++ second) = stagedBytes first + stagedBytes second := by
  rw [stagedBytes, map_append, sum_append]
  rfl

theorem nextOffset_stage (batch : OpenBatch) (addedAt : Int) (frame : RecordFrame) :
    (batch.stage addedAt frame).nextOffset = batch.nextOffset + frame.len := by
  rw [OpenBatch.stage, OpenBatch.nextOffset, OpenBatch.nextOffset]
  dsimp only
  rw [stagedBytes_append, ← Nat.add_assoc]
  rfl

theorem Opened.stage (opened : Opened index next batches) (addedAt : Int) (frame : RecordFrame) :
    Opened index next (stageLast addedAt frame batches) := by
  apply opened.change (segmentIds_stageLast addedAt frame batches)
  intro later member
  rcases mem_stageLast member with ⟨old, listed, rfl | rfl⟩
  · exact ⟨later, listed, rfl, rfl, Nat.le_refl _⟩
  · exact ⟨old, listed, rfl, rfl, Nat.le_refl _⟩

theorem Filled.stage (filled : Filled hashBlock submitted index batches)
    (sized : HasLength hashBlock submitted frame.hash (frame.payload.length % 2 ^ 32))
    (addedAt : Int) : Filled hashBlock submitted index (stageLast addedAt frame batches) where
  within := by
    intro later member
    rcases mem_stageLast member with ⟨old, listed, rfl | rfl⟩
    · exact filled.within later listed
    · obtain ⟨base, opens, headed, behind, within⟩ := filled.within old listed
      refine ⟨base, opens, headed, behind, ?_⟩
      rw [nextOffset_stage]
      intro row listed
      rcases mem_append.mp listed with before | here
      · have old := within row before
        exact ⟨old.1, Nat.le_trans old.2 (Nat.le_add_right _ _)⟩
      · rw [mem_singleton.mp here]
        refine ⟨Nat.le_trans behind (Nat.le_add_right _ _), ?_⟩
        have shorter := Nat.mod_le frame.payload.length (2 ^ 32)
        rw [frame.len_eq]
        exact Nat.add_le_add_left (Nat.add_le_add_left shorter _) _
  sized := by
    intro later member
    rcases mem_stageLast member with ⟨old, listed, rfl | rfl⟩
    · exact filled.sized later listed
    · exact forall_mem_concat (filled.sized old listed) sized
  framed := by
    intro later member
    rcases mem_stageLast member with ⟨old, listed, rfl | rfl⟩
    · exact filled.framed later listed
    · exact forall_mem_concat (filled.framed old listed)
        (Nat.add_le_add_left (Nat.mod_le _ _) _)

theorem getLast?_stageLast (addedAt : Int) (frame : RecordFrame) (batches : List OpenBatch) :
    (stageLast addedAt frame batches).getLast? =
      batches.getLast?.map fun last => last.stage addedAt frame := by
  rcases eq_nil_or_concat batches with rfl | ⟨front, last, rfl⟩
  · rfl
  · rw [concat_eq_append, stageLast_append, getLast?_concat, getLast?_concat]
    rfl

theorem Forward.stage (forward : Forward hashBlock submitted index next batches sealed)
    (sized : HasLength hashBlock submitted frame.hash (frame.payload.length % 2 ^ 32))
    (addedAt : Int) :
    Forward hashBlock submitted index next (stageLast addedAt frame batches) sealed where
  filled := forward.filled.stage sized addedAt
  rolled := {
    below := forward.rolled.below
    none := by
      intro empty
      apply forward.rolled.none
      rcases eq_nil_or_concat batches with rfl | ⟨front, last, rfl⟩
      · rfl
      · rw [concat_eq_append, stageLast_append] at empty
        exact absurd empty (append_ne_nil_of_right_ne_nil _ (cons_ne_nil _ _))
    last := by
      intro later isLast
      rw [getLast?_stageLast] at isLast
      obtain ⟨last, wasLast, rfl⟩ := map_eq_some_iff.mp isLast
      exact forward.rolled.last last wasLast }

theorem Forward.snoc (forward : Forward hashBlock submitted index next batches sealed)
    {later : Nat} {resealed : List Nat} (below : ∀ segmentId ∈ resealed, segmentId < later)
    (apart : batch.segmentId ∉ resealed)
    (empty : batch.rows = []) (opens : batch.From index base) (headed : segmentHeaderLen ≤ base)
    (behind : base ≤ batch.writer.writeEnd) :
    Forward hashBlock submitted index later (batches ++ [batch]) resealed where
  filled := {
    within := by
      refine forall_mem_concat forward.filled.within ?_
      refine ⟨base, opens, headed, behind, ?_⟩
      rw [empty]
      exact nofun
    sized := by
      intro other member row listed
      rcases mem_append.mp member with old | new
      · exact forward.filled.sized other old row listed
      · rw [mem_singleton.mp new, empty] at listed
        cases listed
    framed := by
      intro other member row listed
      rcases mem_append.mp member with old | new
      · exact forward.filled.framed other old row listed
      · rw [mem_singleton.mp new, empty] at listed
        cases listed }
  rolled := {
    below := below
    none := fun nothing =>
      absurd nothing (append_ne_nil_of_right_ne_nil _ (cons_ne_nil _ _))
    last := by
      intro other isLast
      rw [getLast?_concat] at isLast
      cases isLast
      exact apart }

/-! ## Laying out -/

theorem Gone.proceed (gone : Gone group segmentId) (same : after.index = group.index)
    (grows : group.writer.nextSegmentId ≤ after.writer.nextSegmentId)
    (origin : ∀ batch ∈ after.batches, (∃ old ∈ group.batches, old.segmentId = batch.segmentId) ∨
      group.writer.nextSegmentId ≤ batch.segmentId ∨
      ∃ durableEnd, group.index.Row batch.segmentId .active durableEnd) : Gone after segmentId where
  below := Nat.lt_of_lt_of_le gone.below grows
  retired := by
    rw [same]
    exact gone.retired
  apart := by
    intro batch member isThis
    rcases origin batch member with ⟨old, listed, also⟩ | above | ⟨durableEnd, row⟩
    · exact gone.apart old listed (also.trans isThis)
    · have below := gone.below
      omega
    · exact nomatch gone.retired .active durableEnd (isThis ▸ row)

theorem mem_outgoing_below (sound : GroupSound hashBlock submitted group)
    (member : segmentId ∈ outgoing group.writer group.batches) :
    segmentId < group.writer.nextSegmentId := by
  rw [outgoing] at member
  split at member
  · rename_i last isLast
    rw [mem_singleton.mp member]
    exact sound.opened.below last (mem_of_getLast? isLast)
  · cases active : group.writer.active with
    | none =>
      rw [active] at member
      cases member
    | some writer =>
      rw [active] at member
      rw [mem_singleton.mp member]
      exact sound.rows _ _ _ (sound.active writer active).1

theorem GroupState.batches_of (leader : after.leader = some leads) :
    after.batches = leads.phase.batches := by
  rw [batches, leader]

theorem GroupState.batches_of_unled {group : GroupState} (unled : group.leader = none) :
    group.batches = [] := by
  rw [batches, unled]

theorem GroupState.batches_subset_of_unled {group : GroupState} {batches : List OpenBatch}
    (unled : group.leader = none) : group.batches ⊆ batches := by
  rw [batches_of_unled unled]
  exact nil_subset _

theorem Kept.proceed (index : IndexSound hashBlock submitted group.index)
    (sound : GroupSound hashBlock submitted group) (sameIndex : after.index = group.index)
    (grows : group.writer.nextSegmentId ≤ after.writer.nextSegmentId)
    (active : ∀ writer, after.writer.active = some writer →
      group.index.Row writer.segmentId .active writer.writeEnd ∧ after.batches = [])
    (opened : Opened group.index after.writer.nextSegmentId after.batches)
    (phase : ∀ leading, after.leader = some leading →
      leading.phase.Sound hashBlock submitted group.index after.writer.nextSegmentId)
    (origin : ∀ batch ∈ after.batches, (∃ old ∈ group.batches, old.segmentId = batch.segmentId) ∨
      group.writer.nextSegmentId ≤ batch.segmentId ∨
      ∃ durableEnd, group.index.Row batch.segmentId .active durableEnd) :
    Kept hashBlock submitted group after := by
  rw [← sameIndex] at index active opened phase
  refine ⟨index, ⟨?_, active, opened, phase⟩, fun _ gone => gone.proceed sameIndex grows origin⟩
  rw [sameIndex]
  exact fun segmentId state durableEnd row =>
    Nat.lt_of_lt_of_le (sound.rows segmentId state durableEnd row) grows

theorem Kept.staged {rest : List RecordFrame} {addedAt : Int}
    (index : IndexSound hashBlock submitted group.index)
    (sound : GroupSound hashBlock submitted group) (sameIndex : after.index = group.index)
    (inactive : after.writer.active = none)
    (grows : group.writer.nextSegmentId ≤ after.writer.nextSegmentId)
    (leader : after.leader = some leads)
    (phase : leads.phase = .layOut rest (stageLast addedAt frame batches) sealed)
    (opened : Opened group.index after.writer.nextSegmentId batches)
    (forward : Forward hashBlock submitted group.index after.writer.nextSegmentId batches sealed)
    (origin : ∀ batch ∈ batches, (∃ old ∈ group.batches, old.segmentId = batch.segmentId) ∨
      group.writer.nextSegmentId ≤ batch.segmentId ∨
      ∃ durableEnd, group.index.Row batch.segmentId .active durableEnd)
    (frames : ∀ later ∈ frame :: rest,
      HasLength hashBlock submitted later.hash (later.payload.length % 2 ^ 32)) :
    Kept hashBlock submitted group after := by
  have working : after.batches = stageLast addedAt frame batches := by
    rw [batches_of leader, phase]
    rfl
  have sized := frames frame (.head _)
  apply Kept.proceed index sound sameIndex grows
  · intro writer isActive
    rw [inactive] at isActive
    cases isActive
  · rw [working]
    exact opened.stage addedAt frame
  · intro leading same
    rw [leader] at same
    cases same
    rw [phase]
    exact ⟨forward.stage sized addedAt,
      fun later listed => frames later (.tail frame listed)⟩
  · rw [working]
    intro batch member
    rcases mem_stageLast member with ⟨old, listed, rfl | rfl⟩
    · exact origin batch listed
    · exact origin old listed

theorem Kept.goOn (index : IndexSound hashBlock submitted group.index)
    (sound : GroupSound hashBlock submitted group) (sameIndex : after.index = group.index)
    (inactive : ∀ writer, after.writer.active = some writer → group.writer.active = some writer)
    (grows : group.writer.nextSegmentId ≤ after.writer.nextSegmentId)
    (leader : after.leader = some leads)
    (opened : Opened group.index group.writer.nextSegmentId leads.phase.batches)
    (origin : ∀ batch ∈ leads.phase.batches, ∃ old ∈ group.batches,
      old.segmentId = batch.segmentId)
    (phase : leads.phase.Sound hashBlock submitted group.index after.writer.nextSegmentId) :
    Kept hashBlock submitted group after := by
  have working : after.batches = leads.phase.batches := batches_of leader
  apply Kept.proceed index sound sameIndex grows
  · intro writer isActive
    rcases sound.active writer (inactive writer isActive) with ⟨row, idle⟩
    refine ⟨row, ?_⟩
    rw [working]
    apply eq_nil_iff_forall_not_mem.mpr
    intro batch member
    obtain ⟨old, listed, _⟩ := origin batch member
    rw [idle] at listed
    cases listed
  · rw [working]
    exact {
      distinct := opened.distinct
      below := fun batch member => Nat.lt_of_lt_of_le (opened.below batch member) grows
      bases := opened.bases }
  · intro leading same
    rw [leader] at same
    cases same
    exact phase
  · rw [working]
    exact fun batch member => .inl (origin batch member)

theorem Kept.leave (index : IndexSound hashBlock submitted group.index)
    (sound : GroupSound hashBlock submitted group) (sameIndex : after.index = group.index)
    (active : ∀ writer, after.writer.active = some writer →
      group.index.Row writer.segmentId .active writer.writeEnd)
    (grows : group.writer.nextSegmentId ≤ after.writer.nextSegmentId)
    (leader : after.leader = none) : Kept hashBlock submitted group after := by
  have working : after.batches = [] := by
    rw [batches, leader]
  apply Kept.proceed index sound sameIndex grows
  · exact fun writer isActive => ⟨active writer isActive, working⟩
  · rw [working]
    exact opened_nil _ _
  · intro leading same
    rw [leader] at same
    cases same
  · rw [working]
    exact nofun

theorem Kept.creationFailed {directory : Directory} {rest : List RecordFrame}
    (index : IndexSound hashBlock submitted group.index)
    (sound : GroupSound hashBlock submitted group) (leads : group.leader = some leader)
    (phase : leader.phase = .layOut rest batches sealed) :
    Kept hashBlock submitted group
      { group with
        directory := directory
        writer := { active := none, nextSegmentId := group.writer.nextSegmentId + 1 }
        leader := leader.creationFailed batches } := by
  have working : group.batches = batches := by
    rw [batches_of leads, phase]
    rfl
  rw [Leader.creationFailed]
  split
  · exact Kept.goOn index sound rfl nofun (Nat.le_succ _) rfl (working ▸ sound.opened)
      (fun batch member => ⟨batch, working ▸ member, rfl⟩) nofun
  · exact Kept.leave index sound rfl nofun (Nat.le_succ _) rfl

theorem Kept.layOut {limits : GroupCommitLimits} {after : GroupState} {rest : List RecordFrame}
    {outcome : CreateOutcome} (index : IndexSound hashBlock submitted group.index)
    (sound : GroupSound hashBlock submitted group) (leads : group.leader = some leader)
    (phase : leader.phase = .layOut (frame :: rest) batches sealed)
    (stepped : group.layOut limits leader frame rest batches sealed outcome = some after) :
    Kept hashBlock submitted group after := by
  have working : group.batches = batches := by
    rw [batches_of leads, phase]
    rfl
  have here := sound.phase leader leads
  rw [phase] at here
  obtain ⟨forward, frames⟩ := here
  have opened := sound.opened
  rw [working] at opened
  have below : ∀ segmentId ∈ outgoing group.writer batches,
      segmentId < group.writer.nextSegmentId := by
    intro segmentId member
    exact mem_outgoing_below sound (working ▸ member)
  unfold GroupState.layOut at stepped
  dsimp only at stepped
  generalize rollsOver limits leader.kind group.writer batches frame.len = rollOver at stepped
  split at stepped
  · rename_i opens
    split at stepped
    · -- The segment an earlier group left open.
      rename_i active isActive
      cases rollOver with
      | true => cases isActive
      | false =>
        cases stepped
        rcases sound.active active isActive with ⟨row, idle⟩
        have empty : batches = [] := working.symm.trans idle
        have unsealed : sealed = [] := forward.rolled.none empty
        subst empty
        have headed := index.headed _ _ _ row
        have opens : OpenBatch.From group.index
            { writer := active, created := false, frames := [], rows := [] } active.writeEnd :=
          row
        refine Kept.staged index sound rfl rfl (Nat.le_refl _) rfl rfl (opened.snoc
          (Nat.le_refl _) not_mem_nil (sound.rows _ _ _ row) opens headed (Nat.le_refl _))
          (forward.snoc ?_ ?_ rfl opens headed (Nat.le_refl _)) ?_ frames
        · exact forward.rolled.below
        · rw [unsealed]
          exact not_mem_nil
        · intro batch member
          rw [mem_singleton.mp member]
          exact .inr (.inr ⟨_, row⟩)
    · -- A segment of the group's own.
      split at stepped
      · cases stepped
      · rename_i directory _
        cases stepped
        have absent : ∀ state durableEnd,
            ¬group.index.Row group.writer.nextSegmentId state durableEnd := by
          intro state durableEnd row
          exact Nat.lt_irrefl _ (sound.rows _ _ _ row)
        cases outcome with
        | created viaStage =>
          have opens : OpenBatch.From group.index
              { writer := ⟨group.writer.nextSegmentId, segmentHeaderLen⟩, created := true
                frames := [], rows := [] } segmentHeaderLen := ⟨rfl, absent⟩
          have fresh : group.writer.nextSegmentId ∉ batches.map OpenBatch.segmentId := by
            intro listed
            obtain ⟨batch, member, same⟩ := mem_map.mp listed
            exact Nat.lt_irrefl _ (same ▸ opened.below batch member)
          have resealed : ∀ segmentId ∈
              (if rollOver then sealed ++ outgoing group.writer batches else sealed),
              segmentId < group.writer.nextSegmentId := by
            intro segmentId listed
            split at listed
            · rcases mem_append.mp listed with old | new
              · exact forward.rolled.below segmentId old
              · exact below segmentId new
            · exact forward.rolled.below segmentId listed
          refine Kept.staged index sound rfl rfl (Nat.le_succ _) rfl rfl (opened.snoc
            (Nat.le_succ _) fresh (Nat.lt_succ_self _) opens (Nat.le_refl _) (Nat.le_refl _))
            (forward.snoc ?_ ?_ rfl opens (Nat.le_refl _) (Nat.le_refl _)) ?_ frames
          · exact fun segmentId listed => Nat.lt_succ_of_lt (resealed segmentId listed)
          · exact fun listed => Nat.lt_irrefl _ (resealed _ listed)
          · exact forall_mem_concat (fun batch old => .inl ⟨batch, working ▸ old, rfl⟩)
              (.inr (.inl (Nat.le_refl _)))
        | failed => exact Kept.creationFailed index sound leads phase
        | leftStaged => exact Kept.creationFailed index sound leads phase
        | leftUnpublished header => exact Kept.creationFailed index sound leads phase
  · rename_i stays
    cases stepped
    rw [Bool.or_eq_true, not_or] at stays
    have resealed : (if rollOver then sealed ++ outgoing group.writer batches else sealed) =
        sealed := if_neg stays.2
    rw [resealed]
    refine Kept.staged index sound rfl ?_ (Nat.le_refl _) rfl rfl opened forward ?_ frames
    · cases active : group.writer.active with
      | none => rfl
      | some writer =>
        have idle := (sound.active writer active).2
        rw [working] at idle
        exact absurd (isEmpty_iff.mpr idle) stays.1
    · exact fun batch member => .inl ⟨batch, working ▸ member, rfl⟩

/-! ## Writing, syncing and recording -/

variable {done rest : List OpenBatch}

theorem Opened.written (opened : Opened index next (done ++ batch :: rest)) {writeEnd : Nat}
    (longer : batch.writer.writeEnd ≤ writeEnd) :
    Opened index next (done ++
      { batch with
        frames := [], writer := { batch.writer with writeEnd := writeEnd } } :: rest) := by
  apply opened.change
  · rw [map_append, map_append, map_cons, map_cons]
    rfl
  · intro later member
    rcases mem_append.mp member with before | here
    · exact ⟨later, mem_append_left _ before, rfl, rfl, Nat.le_refl _⟩
    · rcases mem_cons.mp here with rfl | behind
      · exact ⟨batch, mem_append_right _ (.head _), rfl, rfl, longer⟩
      · exact ⟨later, mem_append_right _ (.tail _ behind), rfl, rfl,
          Nat.le_refl _⟩

theorem Forward.written
    (forward : Forward hashBlock submitted index next (done ++ batch :: rest) sealed) :
    Forward hashBlock submitted index next (done ++
      { batch with
        frames := []
        writer := { batch.writer with
          writeEnd := batch.writer.writeEnd + stagedBytes batch.frames } } :: rest) sealed where
  filled := {
    within := by
      intro later member
      rcases mem_append.mp member with before | here
      · exact forward.filled.within later (mem_append_left _ before)
      · rcases mem_cons.mp here with rfl | behind
        · obtain ⟨base, opens, headed, after, within⟩ :=
            forward.filled.within batch (mem_append_right _ (.head _))
          exact ⟨base, opens, headed, Nat.le_trans after (Nat.le_add_right _ _), within⟩
        · exact forward.filled.within later
            (mem_append_right _ (.tail _ behind))
    sized := by
      intro later member row listed
      rcases mem_append.mp member with before | here
      · exact forward.filled.sized later (mem_append_left _ before) row listed
      · rcases mem_cons.mp here with rfl | behind
        · exact forward.filled.sized batch (mem_append_right _ (.head _)) row
            listed
        · exact forward.filled.sized later
            (mem_append_right _ (.tail _ behind)) row listed
    framed := by
      intro later member row listed
      rcases mem_append.mp member with before | here
      · exact forward.filled.framed later (mem_append_left _ before) row listed
      · rcases mem_cons.mp here with rfl | behind
        · exact forward.filled.framed batch (mem_append_right _ (.head _)) row
            listed
        · exact forward.filled.framed later
            (mem_append_right _ (.tail _ behind)) row listed }
  rolled := {
    below := forward.rolled.below
    none := fun empty =>
      absurd empty (append_ne_nil_of_right_ne_nil _ (cons_ne_nil _ _))
    last := by
      intro last isLast
      cases rest with
      | nil =>
        rw [getLast?_concat] at isLast
        cases isLast
        exact forward.rolled.last batch getLast?_concat
      | cons first rest =>
        apply forward.rolled.last last
        rw [getLast?_append, getLast?_cons_cons] at isLast ⊢
        exact isLast }

theorem Kept.append {segments : Nat} {after : GroupState} {results : List (List Nat)}
    (index : IndexSound hashBlock submitted group.index)
    (sound : GroupSound hashBlock submitted group) (leads : group.leader = some leader)
    (phase : leader.phase = .append done (batch :: rest) sealed)
    (stepped : group.append segments leader done batch rest sealed results = some after) :
    Kept hashBlock submitted group after := by
  have working : group.batches = done ++ batch :: rest := by
    rw [batches_of leads, phase]
    rfl
  have here := sound.phase leader leads
  rw [phase] at here
  obtain ⟨forward, written⟩ := here
  have opened := sound.opened
  rw [working] at opened
  have origin : ∀ writeEnd : Nat, ∀ later ∈ done ++
      ({ batch with frames := [], writer := { batch.writer with writeEnd := writeEnd } } :
        OpenBatch) :: rest, ∃ old ∈ group.batches, old.segmentId = later.segmentId := by
    intro writeEnd later member
    rw [working]
    have listed := mem_map_of_mem (f := OpenBatch.segmentId) member
    rw [map_append] at listed
    exact mem_map.mp (map_append ▸ listed)
  rw [GroupState.append] at stepped
  split at stepped
  · generalize appendChunks segments _ _ _ results = wrote at stepped
    obtain ⟨succeeded, file⟩ := wrote
    cases stepped
    cases succeeded with
    | true =>
      have longer := opened.written (Nat.le_add_right _ (stagedBytes batch.frames))
      refine Kept.goOn index sound rfl (fun _ => id) (Nat.le_refl _) rfl ?_ ?_ ?_
      · change Opened _ _ ((done ++ [_]) ++ rest)
        rw [append_assoc]
        exact longer
      · change ∀ later ∈ (done ++ [_]) ++ rest, _
        rw [append_assoc]
        exact origin _
      · change Forward _ _ _ _ ((done ++ [_]) ++ rest) _ ∧ _
        rw [append_assoc]
        refine ⟨forward.written, ?_⟩
        intro other member
        rcases mem_append.mp member with old | new
        · exact written other old
        · rw [mem_singleton.mp new]
    | false =>
      exact Kept.goOn index sound rfl (fun _ => id) (Nat.le_refl _) rfl
        (opened.written (Nat.le_refl _)) (origin _) nofun
  · cases stepped

theorem Kept.sync {synced : Bool} (index : IndexSound hashBlock submitted group.index)
    (sound : GroupSound hashBlock submitted group) (leads : group.leader = some leader)
    (phase : leader.phase = .sync done (batch :: rest) sealed) :
    Kept hashBlock submitted group (group.sync leader done batch rest sealed synced) := by
  have working : group.batches = done ++ batch :: rest := by
    rw [batches_of leads, phase]
    rfl
  have here := sound.phase leader leads
  rw [phase] at here
  have opened := sound.opened
  rw [working] at opened
  have same : (done ++ [batch]) ++ rest = done ++ batch :: rest := by
    rw [append_assoc]
    rfl
  rw [GroupState.sync]
  split
  · refine Kept.goOn index sound rfl (fun _ => id) (Nat.le_refl _) rfl ?_ ?_ ?_
    · change Opened _ _ ((done ++ [batch]) ++ rest)
      rw [same]
      exact opened
    · change ∀ later ∈ (done ++ [batch]) ++ rest, _
      rw [same, working]
      exact fun later member => ⟨later, member, rfl⟩
    · change Forward _ _ _ _ ((done ++ [batch]) ++ rest) _ ∧
        ∀ later ∈ (done ++ [batch]) ++ rest, _
      rw [same]
      exact here
  · refine Kept.goOn index sound rfl (fun _ => id) (Nat.le_refl _) rfl opened ?_ nofun
    rw [working]
    exact fun later member => ⟨later, member, rfl⟩

/-! ## The transaction of a group -/

theorem Undisturbed.trans {first second third : BlockIndex} (one : Undisturbed first second)
    (two : Undisturbed second third) : Undisturbed first third where
  rows := by
    intro segmentId state durableEnd row
    obtain ⟨middle, there, later⟩ := two.rows _ _ _ row
    obtain ⟨earlier, here, sooner⟩ := one.rows _ _ _ there
    exact ⟨earlier, here, fun retired => later (sooner retired)⟩
  active := fun segmentId durableEnd row => two.active _ _ (one.active segmentId durableEnd row)

theorem undisturbed_retireAll (index : BlockIndex) (sources : List Nat) :
    Undisturbed index (sources.foldl BlockIndex.retireEmptySegment index) := by
  induction sources generalizing index with
  | nil => exact .of_rows fun _ _ _ => Iff.rfl
  | cons source sources induction =>
    exact (undisturbed_retireEmptySegment index source).trans (induction _)

theorem Coherent.retireAll (coherent : Coherent index) (sources : List Nat) :
    Coherent (sources.foldl BlockIndex.retireEmptySegment index) := by
  induction sources generalizing index with
  | nil => exact coherent
  | cons source sources induction => exact induction (coherent.retireEmptySegment source)

theorem blocks_retireAll (index : BlockIndex) (sources : List Nat) :
    (sources.foldl BlockIndex.retireEmptySegment index).blocks = index.blocks := by
  induction sources generalizing index with
  | nil => rfl
  | cons source sources induction => exact induction (index.retireEmptySegment source)

theorem blocks_sealAll (index : BlockIndex) (sealed : List Nat) :
    (index.sealAll sealed).blocks = index.blocks := by
  rw [BlockIndex.sealAll]
  induction sealed generalizing index with
  | nil => rfl
  | cons segmentId sealed induction => exact induction (index.sealSegment segmentId)

theorem Opened.plannable (opened : Opened index next batches)
    (filled : Filled hashBlock submitted index batches)
    (written : ∀ batch ∈ batches, batch.frames = []) :
    Plannable (index.sealAll sealed) (batches.map OpenBatch.toAppend) where
  distinct := by
    rw [pairwise_map]
    exact pairwise_map.mp opened.distinct
  appendable := by
    intro append member
    obtain ⟨batch, listed, rfl⟩ := mem_map.mp member
    obtain ⟨base, opens, headed, behind, within⟩ := filled.within batch listed
    rw [OpenBatch.nextOffset, written batch listed] at within
    rw [OpenBatch.From] at opens
    exact {
      created := by
        intro (created : batch.created = true)
        rw [if_pos created] at opens
        refine ⟨?_, Nat.le_trans headed behind⟩
        intro state durableEnd row
        obtain ⟨before, old, _⟩ := row_sealAll.mp row
        exact opens.2 before durableEnd old
      existing := by
        intro (existing : batch.created = false)
        rw [existing] at opens
        refine ⟨_, base, row_sealAll.mpr ⟨.active, opens, rfl⟩, ?_, behind⟩
        split
        · rintro ⟨⟩
        · rintro ⟨⟩
      within := by
        intro row inBatch
        have bounds := within row inBatch
        exact ⟨Nat.le_trans headed bounds.1, bounds.2⟩ }

variable {apply : BlockIndex → SegmentAppend → BlockIndex}

/-- The rows after the appends of a group: its own with their new ends, and the rest in the state
they were in or sealed. -/
theorem Opened.row_appended (opened : Opened index next batches) (applies : Applies apply)
    {durableEnd : Nat} {state : SegmentState}
    (row : ((batches.map OpenBatch.toAppend).foldl apply (index.sealAll sealed)).Row segmentId
      state durableEnd) :
    (∃ batch ∈ batches, batch.segmentId = segmentId ∧ durableEnd = batch.writer.writeEnd) ∨
    (∀ batch ∈ batches, batch.segmentId ≠ segmentId) ∧
      ∃ before, index.Row segmentId before durableEnd ∧ (before = .retired ↔ state = .retired) := by
  have distinct : (batches.map OpenBatch.toAppend).Pairwise
      fun first second => first.segmentId ≠ second.segmentId := by
    rw [pairwise_map]
    exact pairwise_map.mp opened.distinct
  rcases (row_foldl applies distinct).mp row with ⟨append, member, same, ends, _⟩ | ⟨apart, old⟩
  · obtain ⟨batch, listed, rfl⟩ := mem_map.mp member
    exact .inl ⟨batch, listed, same.symm, ends⟩
  · right
    refine ⟨fun batch listed same => apart _ (mem_map_of_mem listed) same.symm, ?_⟩
    obtain ⟨before, was, after⟩ := row_sealAll.mp old
    refine ⟨before, was, ?_⟩
    rw [after]
    split
    · rename_i wasActive
      rw [wasActive.2]
      exact ⟨nofun, nofun⟩
    · exact Iff.rfl

theorem Opened.row_last (opened : Opened index next batches) (applies : Applies apply)
    (unsealed : batch.segmentId ∉ sealed) (listed : batch ∈ batches) :
    ((batches.map OpenBatch.toAppend).foldl apply (index.sealAll sealed)).Row batch.segmentId
      .active batch.writer.writeEnd := by
  have distinct : (batches.map OpenBatch.toAppend).Pairwise
      fun first second => first.segmentId ≠ second.segmentId := by
    rw [pairwise_map]
    exact pairwise_map.mp opened.distinct
  refine (row_foldl applies distinct).mpr
    (.inl ⟨batch.toAppend, mem_map_of_mem listed, rfl, rfl, ?_⟩)
  obtain ⟨base, opens, _⟩ := opened.bases batch listed
  rw [OpenBatch.From] at opens
  split at opens
  · rename_i created
    refine .inr ⟨created, rfl, ?_⟩
    intro state durableEnd row
    obtain ⟨before, old, _⟩ := row_sealAll.mp row
    exact opens.2 before durableEnd old
  · refine .inl ⟨base, row_sealAll.mpr ⟨.active, opens, ?_⟩⟩
    rw [if_neg fun both => unsealed both.1]

theorem rows_commitPlan (index : BlockIndex) (plan : GroupCommitPlan) (kind : GroupKind) :
    ∃ apply, Applies apply ∧
      Undisturbed (plan.appends.foldl apply (index.sealAll plan.sealed))
        (commitPlan index plan kind) := by
  cases kind with
  | ingest =>
    exact ⟨_, applies_applyAppend, .of_rows fun _ _ _ => Iff.rfl⟩
  | relocation compaction sources =>
    refine ⟨_, applies_applyRelocation, ?_⟩
    have retired := undisturbed_retireAll
      (plan.appends.foldl BlockIndex.applyRelocation (index.sealAll plan.sealed)) sources
    exact ⟨retired.rows, retired.active⟩

theorem Coherent.commitPlan (coherent : Coherent index) (plan : GroupCommitPlan)
    (plannable : Plannable (index.sealAll plan.sealed) plan.appends)
    (copies : ∀ append ∈ plan.appends, Copies index append.blocks) (kind : GroupKind) :
    Coherent (Segments.commitPlan index plan kind) ∧
      Maps index (Segments.commitPlan index plan kind) plan.appends := by
  have sealed := coherent.sealAll plan.sealed
  have sameBlocks := blocks_sealAll index plan.sealed
  cases kind with
  | ingest =>
    have made := sealed.applyAppends plannable
    have maps := (Maps.nothing sameBlocks).trans
      (@maps_applyAppends (index.sealAll plan.sealed) plan.appends)
    exact ⟨⟨made.hashes, made.segments, made.counted, made.housed⟩, ⟨maps.new, maps.kept, maps.measured⟩⟩
  | relocation compaction sources =>
    have sized : ∀ append ∈ plan.appends,
        Copies (index.sealAll plan.sealed) append.blocks := by
      intro append member
      rw [Copies, sameBlocks]
      exact copies append member
    have made := (sealed.applyRelocations plannable sized).retireAll sources
    have maps := (Maps.nothing sameBlocks).trans (maps_applyRelocations sized)
    have retired := maps.trans (Maps.nothing (blocks_retireAll _ sources))
    exact ⟨⟨made.hashes, made.segments, made.counted, made.housed⟩,
      ⟨retired.new, retired.kept, retired.measured⟩⟩

theorem Filled.copies (filled : Filled hashBlock submitted index batches)
    (free : CollisionFree hashBlock submitted) (sound : IndexSound hashBlock submitted index) :
    ∀ append ∈ batches.map OpenBatch.toAppend, Copies index append.blocks := by
  intro append member block listed row mapped same
  obtain ⟨batch, inGroup, rfl⟩ := mem_map.mp member
  have length := filled.sized batch inGroup block listed
  exact HasLength.unique free (sound.sized row mapped) (same ▸ length)

theorem Kept.commit {after : GroupState} {leads : Leader} (kind : GroupKind)
    (free : CollisionFree hashBlock submitted)
    (index : IndexSound hashBlock submitted group.index)
    (sound : GroupSound hashBlock submitted group)
    (forward : Forward hashBlock submitted group.index group.writer.nextSegmentId group.batches
      sealed)
    (written : ∀ batch ∈ group.batches, batch.frames = [])
    (recorded : after.index =
      commitPlan group.index (groupPlan group.writer group.batches sealed) kind)
    (writer : after.writer =
      { group.writer with active := group.batches.getLast?.map OpenBatch.writer })
    (leading : after.leader = some leads) (answers : leads.phase = .answer) :
    Kept hashBlock submitted group after := by
  have working : after.batches = [] := by
    rw [batches_of leading, answers]
    rfl
  have plannable : Plannable (group.index.sealAll sealed)
      (group.batches.map OpenBatch.toAppend) :=
    sound.opened.plannable forward.filled written
  have committed := index.coherent.commitPlan
    (groupPlan group.writer group.batches sealed) plannable
    (forward.filled.copies free index) kind
  rcases committed with ⟨coherent, maps⟩
  obtain ⟨apply, applies, later⟩ := rows_commitPlan group.index
    (groupPlan group.writer group.batches sealed) kind
  rw [← recorded] at coherent maps later
  have next : after.writer.nextSegmentId = group.writer.nextSegmentId := by rw [writer]
  exact {
    index := {
      coherent := coherent
      sized := by
        intro row member
        rcases maps.new row member with old | ⟨append, listed, block, inAppend, hash, _, _, long⟩
        · exact index.sized row old
        · obtain ⟨batch, inGroup, rfl⟩ := mem_map.mp listed
          rw [hash, long]
          exact forward.filled.sized batch inGroup block inAppend
      framed := by
        intro row member
        rcases maps.measured row member with ⟨old, there, payload, record⟩ |
          ⟨append, listed, block, inAppend, payload, record⟩
        · rw [payload, record]
          exact index.framed old there
        · obtain ⟨batch, inGroup, rfl⟩ := mem_map.mp listed
          rw [payload, record]
          exact forward.filled.framed batch inGroup block inAppend
      headed := by
        intro segmentId state durableEnd row
        obtain ⟨middle, appended, _⟩ := later.rows _ _ _ row
        rcases sound.opened.row_appended applies appended with
          ⟨batch, listed, _, ends⟩ | ⟨_, before, old, _⟩
        · obtain ⟨base, _, headed, behind⟩ := sound.opened.bases batch listed
          rw [ends]
          exact Nat.le_trans headed behind
        · exact index.headed segmentId before durableEnd old }
    group := {
      rows := by
        intro segmentId state durableEnd row
        rw [next]
        obtain ⟨middle, appended, _⟩ := later.rows _ _ _ row
        rcases sound.opened.row_appended applies appended with
          ⟨batch, listed, same, _⟩ | ⟨_, before, old, _⟩
        · rw [← same]
          exact sound.opened.below batch listed
        · exact sound.rows segmentId before durableEnd old
      active := by
        intro active isActive
        rw [writer] at isActive
        obtain ⟨last, isLast, rfl⟩ := map_eq_some_iff.mp isActive
        refine ⟨later.active _ _ ?_, working⟩
        exact sound.opened.row_last applies (forward.rolled.last last isLast)
          (mem_of_getLast? isLast)
      opened := by
        rw [working]
        exact opened_nil _ _
      phase := by
        intro other same
        rw [leading] at same
        cases same
        rw [answers]
        trivial }
    gone := by
      intro segmentId gone
      exact {
        below := by
          rw [next]
          exact gone.below
        retired := by
          intro state durableEnd row
          obtain ⟨middle, appended, stays⟩ := later.rows _ _ _ row
          rcases sound.opened.row_appended applies appended with
            ⟨batch, listed, same, _⟩ | ⟨_, before, old, iff⟩
          · exact absurd same (gone.apart batch listed)
          · exact stays (iff.mp (gone.retired before durableEnd old))
        apart := by
          rw [working]
          exact nofun } }

theorem Kept.record {committed : Bool} (free : CollisionFree hashBlock submitted)
    (index : IndexSound hashBlock submitted group.index)
    (sound : GroupSound hashBlock submitted group) (leads : group.leader = some leader)
    (phase : leader.phase = .record batches sealed) :
    Kept hashBlock submitted group (group.record leader batches sealed committed) := by
  have working : group.batches = batches := by
    rw [batches_of leads, phase]
    rfl
  have here := sound.phase leader leads
  rw [phase] at here
  rw [GroupState.record]
  split
  · exact Kept.commit leader.kind free index sound (working ▸ here.1) (working ▸ here.2)
      (working ▸ rfl) (working ▸ rfl) rfl rfl
  · exact Kept.goOn index sound rfl (fun _ => id) (Nat.le_refl _) rfl (working ▸ sound.opened)
      (fun batch member => ⟨batch, working ▸ member, rfl⟩) nofun

/-! ## Undoing -/

theorem row_sealed_other {other durableEnd : Nat} (apart : other ≠ segmentId)
    (row : index.Row other .active durableEnd) :
    (index.setSegmentState segmentId .sealed).Row other .active durableEnd := by
  refine row_setSegmentState.mpr ⟨.active, row, ?_⟩
  rw [if_neg apart]

theorem Kept.sealBatch {survivor : Option SegmentWriter}
    (index : IndexSound hashBlock submitted group.index)
    (sound : GroupSound hashBlock submitted group) (leader : group.leader = some leads)
    (phase : leads.phase = .undo (batch :: rest) survivor) (inactive : group.writer.active = none)
    (indexed : after.index = group.index.setSegmentState batch.segmentId .sealed)
    (writer : after.writer = group.writer)
    (leading : after.leader = some { leads with phase := .undo rest survivor }) :
    Kept hashBlock submitted group after := by
  have working : group.batches = batch :: rest := by
    rw [batches_of leader, phase]
    rfl
  have left : after.batches = rest := batches_of leading
  have here := sound.phase leads leader
  rw [phase] at here
  have opened := sound.opened
  rw [working] at opened
  have distinct := opened.distinct
  rw [map_cons, nodup_cons] at distinct
  have apart : ∀ later ∈ rest, later.segmentId ≠ batch.segmentId :=
    fun later member same => distinct.1 (same ▸ mem_map_of_mem member)
  exact {
    index := {
      coherent := by
        rw [indexed]
        exact index.coherent.setSegmentState batch.segmentId
      sized := by
        rw [indexed]
        exact index.sized
      framed := by
        rw [indexed]
        exact index.framed
      headed := by
        intro segmentId state durableEnd row
        rw [indexed] at row
        obtain ⟨before, old, _⟩ := row_setSegmentState.mp row
        exact index.headed segmentId before durableEnd old }
    group := {
      rows := by
        intro segmentId state durableEnd row
        rw [indexed] at row
        obtain ⟨before, old, _⟩ := row_setSegmentState.mp row
        rw [writer]
        exact sound.rows segmentId before durableEnd old
      active := by
        intro active isActive
        rw [writer, inactive] at isActive
        cases isActive
      opened := by
        rw [left, writer]
        have fewer := opened.sublist (sublist_cons_self batch rest)
        refine ⟨fewer.distinct, fewer.below, ?_⟩
        intro later member
        obtain ⟨base, opens, bounds⟩ := fewer.bases later member
        refine ⟨base, ?_, bounds⟩
        rw [indexed]
        rw [OpenBatch.From] at opens ⊢
        split
        · rename_i created
          rw [if_pos created] at opens
          refine ⟨opens.1, fun state durableEnd row => ?_⟩
          obtain ⟨before, old, _⟩ := row_setSegmentState.mp row
          exact opens.2 before durableEnd old
        · rename_i existing
          rw [if_neg existing] at opens
          exact row_sealed_other (apart later member) opens
      phase := by
        intro other same
        rw [leading] at same
        cases same
        intro survived isSurvivor
        rcases here survived isSurvivor with ⟨row, elsewhere⟩
        rw [indexed]
        refine ⟨row_sealed_other ?_ row, ?_⟩
        · exact Ne.symm (elsewhere batch (.head _))
        · exact fun later member => elsewhere later (.tail batch member) }
    gone := by
      intro segmentId gone
      exact {
        below := by
          rw [writer]
          exact gone.below
        retired := by
          intro state durableEnd row
          rw [indexed] at row
          obtain ⟨before, old, after⟩ := row_setSegmentState.mp row
          have notThis : segmentId ≠ batch.segmentId := by
            apply Ne.symm
            apply gone.apart batch
            rw [working]
            exact .head _
          rw [if_neg notThis] at after
          rw [after]
          exact gone.retired before durableEnd old
        apart := by
          rw [left]
          intro later member
          apply gone.apart later
          rw [working]
          exact .tail batch member } }

theorem Kept.rollBackOne {outcome : UndoOutcome} {survivor : Option SegmentWriter}
    (index : IndexSound hashBlock submitted group.index)
    (sound : GroupSound hashBlock submitted group) (leads : group.leader = some leader)
    (phase : leader.phase = .undo (batch :: rest) survivor) :
    Kept hashBlock submitted group (group.rollBackOne leader batch rest survivor outcome) := by
  have working : group.batches = batch :: rest := by
    rw [batches_of leads, phase]
    rfl
  have here := sound.phase leader leads
  rw [phase] at here
  have opened := sound.opened
  rw [working] at opened
  have fewer := opened.sublist (sublist_cons_self batch rest)
  have distinct := opened.distinct
  rw [map_cons, nodup_cons] at distinct
  have apart : ∀ later ∈ rest, later.segmentId ≠ batch.segmentId :=
    fun later member same => distinct.1 (same ▸ mem_map_of_mem member)
  have origin : ∀ later ∈ rest, ∃ old ∈ group.batches, old.segmentId = later.segmentId := by
    rw [working]
    exact fun later member => ⟨later, .tail batch member, rfl⟩
  have inactive : group.writer.active = none := by
    cases active : group.writer.active with
    | none => rfl
    | some writer =>
      have idle := (sound.active writer active).2
      rw [working] at idle
      cases idle
  have stays : ∀ writer, survivor = some writer →
      group.index.Row writer.segmentId .active writer.writeEnd ∧
        ∀ later ∈ rest, later.segmentId ≠ writer.segmentId := by
    intro writer same
    rcases here writer same with ⟨row, elsewhere⟩
    exact ⟨row, fun later member => elsewhere later (.tail batch member)⟩
  rw [GroupState.rollBackOne]
  dsimp only
  split
  · rename_i durableEnd recorded
    split
    · -- The segment is cut back and can be written again.
      refine Kept.goOn index sound rfl (fun _ => id) (Nat.le_refl _) rfl fewer origin ?_
      intro writer same
      cases survivor with
      | some earlier =>
        rw [some_or] at same
        exact stays writer same
      | none =>
        rw [none_or] at same
        cases same
        refine ⟨?_, apart⟩
        rw [recordedEnd] at recorded
        split at recorded
        · obtain ⟨base, opens, _⟩ := opened.bases batch (.head _)
          rw [OpenBatch.From] at opens
          split at opens
          · obtain ⟨row, found, _⟩ := map_eq_some_iff.mp recorded
            exact absurd (row_of_segment found) (opens.2 _ _)
          · have same := index.coherent.segment_of_row opens
            rw [OpenBatch.segmentId] at same
            rw [same] at recorded
            cases recorded
            exact opens
        · cases recorded
    · -- It is sealed, if that can be recorded, and left to recovery.
      split
      · exact Kept.sealBatch index sound leads phase inactive rfl rfl rfl
      · exact Kept.goOn index sound rfl (fun _ => id) (Nat.le_refl _) rfl fewer origin stays
  · exact Kept.goOn index sound rfl (fun _ => id) (Nat.le_refl _) rfl fewer origin stays

end Yadorilink.Segments
