import Yadorilink.Segments.OpenRuns

/-! The writer and the index on which segment is open: the row of the segment the writer appends to
is the only active one, in every run whose groups do not fail or roll over in the wrong place. -/

namespace Yadorilink.Segments

open Machine List

variable {writer : WriterState} {addedAt : Int} {frame : RecordFrame} {directory : Directory}

variable {hashBlock : Bytes → RawHash} {limits : GroupCommitLimits} {segments : Nat}
  {submitted : List Bytes} {index after : BlockIndex} {group : GroupState} {leader : Leader}
  {batches : List OpenBatch} {sealed : List Nat} {segmentId other : Nat}

/-! ## Active rows -/

def BlockIndex.Active (index : BlockIndex) (segmentId : Nat) : Prop :=
  ∃ durableEnd, index.Row segmentId .active durableEnd

def Passive (before after : BlockIndex) : Prop :=
  ∀ segmentId, after.Active segmentId → before.Active segmentId

theorem passive_refl (index : BlockIndex) : Passive index index := fun _ => id

theorem passive_removeBlocks (index : BlockIndex) (hashes : List RawHash) :
    Passive index (index.removeBlocks hashes) := by
  rintro segmentId ⟨durableEnd, row⟩
  exact ⟨durableEnd, row_removeBlocks.mp row⟩

theorem passive_updateSegment {change : SegmentRow → SegmentRow}
    (names : ∀ row, (change row).segmentId = row.segmentId)
    (closes : ∀ row, (change row).state = .active → row.state = .active) (index : BlockIndex)
    (blocks : List BlockRow) (segmentId : Nat) :
    Passive index ({ index with blocks := blocks }.updateSegment segmentId change) := by
  rintro other ⟨durableEnd, row⟩
  rcases (row_updateSegment names).mp row with ⟨old, listed, same, state, _⟩
  refine ⟨old.durableEnd, old, listed, same, ?_, rfl⟩
  split at state
  · exact closes old state
  · exact state

theorem passive_retireEmptySegment (index : BlockIndex) (other : Nat) :
    Passive index (index.retireEmptySegment other) := by
  refine passive_updateSegment ?_ ?_ index index.blocks other
  · intro row
    rw [SegmentRow.retireEmpty]
    split <;> rfl
  · intro row active
    rw [SegmentRow.retireEmpty] at active
    split at active
    · cases active
    · exact active

theorem passive_retireAll (index : BlockIndex) (sources : List Nat) :
    Passive index (sources.foldl BlockIndex.retireEmptySegment index) := by
  induction sources generalizing index with
  | nil => exact passive_refl index
  | cons source sources induction =>
    intro segmentId active
    exact passive_retireEmptySegment index source segmentId (induction _ segmentId active)

theorem passive_forgetSegment (index : BlockIndex) (other : Nat) :
    Passive index (index.forgetSegment other) := by
  rintro segmentId ⟨durableEnd, row⟩
  exact ⟨durableEnd, (row_forgetSegment.mp row).2⟩

theorem passive_onIndex (index : BlockIndex) (action : RecoveryAction) :
    Passive index (action.onIndex index) := by
  cases action with
  | forget segmentId => exact passive_forgetSegment index segmentId
  | dropMappings segmentId =>
    refine passive_updateSegment ?_ ?_ index _ segmentId
    · exact fun _ => rfl
    · exact fun _ => id
  | repair segmentId fileLen =>
    refine passive_updateSegment ?_ ?_ index _ segmentId
    · exact fun _ => rfl
    · exact fun _ => id
  | setSealed segmentId =>
    refine passive_updateSegment ?_ ?_ index index.blocks segmentId
    · exact fun _ => rfl
    · rintro _ ⟨⟩
  | retire segmentId => exact passive_retireEmptySegment index segmentId
  | remove | setLen | syncFile | removeStage | syncDirectory => exact passive_refl index

theorem passive_onIndexes (index : BlockIndex) (actions : List RecoveryAction) :
    Passive index (actions.foldl RecoveryAction.onIndex index) := by
  induction actions generalizing index with
  | nil => exact passive_refl index
  | cons action actions induction =>
    intro segmentId active
    exact passive_onIndex index action segmentId (induction _ segmentId active)

theorem active_setSealed (active : (index.setSegmentState other .sealed).Active segmentId) :
    index.Active segmentId ∧ segmentId ≠ other := by
  rcases active with ⟨durableEnd, row⟩
  rcases row_setSegmentState.mp row with ⟨before, old, state⟩
  split at state
  · cases state
  · rename_i apart
    exact ⟨⟨durableEnd, state ▸ old⟩, apart⟩

theorem active_sealAll (active : (index.sealAll sealed).Active segmentId) :
    index.Active segmentId ∧ segmentId ∉ sealed := by
  rcases active with ⟨durableEnd, row⟩
  rcases row_sealAll.mp row with ⟨before, old, state⟩
  split at state
  · cases state
  · rename_i apart
    have isActive : before = .active := state.symm
    exact ⟨⟨durableEnd, isActive ▸ old⟩, fun listed => apart ⟨listed, isActive⟩⟩

theorem active_appends {apply : BlockIndex → SegmentAppend → BlockIndex} (applies : Applies apply)
    {appends : List SegmentAppend} (active : (appends.foldl apply index).Active segmentId) :
    index.Active segmentId ∨ ∃ append ∈ appends, append.created = true ∧
      append.segmentId = segmentId := by
  induction appends generalizing index with
  | nil => exact .inl active
  | cons append appends induction =>
    rcases induction active with ⟨durableEnd, row⟩ | ⟨later, listed, made⟩
    · have before := (applies _ _ _ _ _).mp row
      split at before
      · rename_i here
        rcases before.2 with ⟨stop, old⟩ | ⟨created, _⟩
        · exact .inl ⟨stop, old⟩
        · exact .inr ⟨append, .head _, created, here.symm⟩
      · exact .inl ⟨durableEnd, before⟩
    · exact .inr ⟨later, .tail append listed, made⟩

/-- The rows a group leaves active: those it does not roll over, and those it creates, also where it
rolls them over. -/
theorem active_commitPlan {plan : GroupCommitPlan} {kind : GroupKind}
    (active : (commitPlan index plan kind).Active segmentId) :
    (index.Active segmentId ∧ segmentId ∉ plan.sealed) ∨
      ∃ append ∈ plan.appends, append.created = true ∧ append.segmentId = segmentId := by
  cases kind with
  | ingest =>
    have appended : (plan.appends.foldl BlockIndex.applyAppend
        (index.sealAll plan.sealed)).Active segmentId := active
    exact (active_appends applies_applyAppend appended).imp_left active_sealAll
  | relocation compaction sources =>
    have retired : (sources.foldl BlockIndex.retireEmptySegment
        (plan.appends.foldl BlockIndex.applyRelocation
          (index.sealAll plan.sealed))).Active segmentId := active
    have appended := passive_retireAll _ sources segmentId retired
    exact (active_appends applies_applyRelocation appended).imp_left active_sealAll

/-! ## Groups -/

/-- The segments a group will close, or give back to the writer. -/
def Phase.Holds (active : Option SegmentWriter) (segmentId : Nat) : Phase → Prop
  | .layOut _ batches sealed => active.map SegmentWriter.segmentId = some segmentId ∨
      segmentId ∈ batches.map OpenBatch.segmentId ∨ segmentId ∈ sealed
  | .append done rest sealed | .sync done rest sealed =>
    segmentId ∈ (done ++ rest).map OpenBatch.segmentId ∨ segmentId ∈ sealed
  | .record batches sealed =>
    segmentId ∈ batches.map OpenBatch.segmentId ∨ segmentId ∈ sealed
  | .undo rest survivor => segmentId ∈ rest.map OpenBatch.segmentId ∨
      survivor.map SegmentWriter.segmentId = some segmentId
  | .answer => active.map SegmentWriter.segmentId = some segmentId

/-- Each batch but the last was rolled over, and a relocation rolls over its own batches only. -/
structure Rolling (kind : GroupKind) (batches : List OpenBatch) (sealed : List Nat) : Prop where
  front : ∀ batch ∈ batches.dropLast, batch.segmentId ∈ sealed
  own : kind ≠ .ingest → ∀ segmentId ∈ sealed, segmentId ∈ batches.map OpenBatch.segmentId

def Phase.Rolls (kind : GroupKind) : Phase → Prop
  | .layOut rest batches sealed => Rolling kind batches sealed ∧ (rest = [] → batches ≠ [])
  | .append done rest sealed | .sync done rest sealed =>
    Rolling kind (done ++ rest) sealed ∧ done ++ rest ≠ []
  | .record batches sealed => Rolling kind batches sealed ∧ batches ≠ []
  | .undo _ _ | .answer => True

/-- At most one row is active, and it is that of the segment the writer, or the group, has open. -/
structure Agrees (group : GroupState) : Prop where
  single : ∀ first second, group.index.Active first → group.index.Active second → first = second
  unled : group.leader = none → ∀ segmentId, group.index.Active segmentId →
    group.writer.active.map SegmentWriter.segmentId = some segmentId
  holds : ∀ leader, group.leader = some leader → ∀ segmentId, group.index.Active segmentId →
    leader.phase.Holds group.writer.active segmentId
  rolls : ∀ leader, group.leader = some leader → leader.phase.Rolls leader.kind

/-- Everything a group rolled over is among its batches, to be undone with them. -/
def Releases (batches : List OpenBatch) (sealed : List Nat) : Prop :=
  ∀ segmentId ∈ sealed, segmentId ∈ batches.map OpenBatch.segmentId

instance Releases.decidable (batches : List OpenBatch) (sealed : List Nat) :
    Decidable (Releases batches sealed) :=
  inferInstanceAs (Decidable (∀ _ ∈ _, _))

/-- What laying out the next record has rolled over, once it creates a segment for it. -/
def GroupState.rolledOver (limits : GroupCommitLimits) (group : GroupState) (kind : GroupKind)
    (batches : List OpenBatch) (sealed : List Nat) (needed : Nat) : List Nat :=
  if rollsOver limits kind group.writer batches needed then
    sealed ++ outgoing group.writer batches
  else sealed

def GroupState.creates (limits : GroupCommitLimits) (group : GroupState) (kind : GroupKind)
    (batches : List OpenBatch) (needed : Nat) : Bool :=
  rollsOver limits kind group.writer batches needed ||
    (batches.isEmpty && group.writer.active.isNone)

def CreateOutcome.succeeds : CreateOutcome → Bool
  | .created _ => true
  | _ => false

def Phase.SettlesLayOut (limits : GroupCommitLimits) (group : GroupState) (kind : GroupKind)
    (outcome : CreateOutcome) : Phase → Prop
  | .layOut (frame :: _) batches sealed =>
    group.creates limits kind batches frame.len = true → outcome.succeeds = false →
      if kind = .ingest then
        Releases batches (group.rolledOver limits kind batches sealed frame.len)
      else ∀ batch ∈ batches, batch.created = true
  | _ => True

def Phase.SettlesAppend (segments : Nat) (group : GroupState) (results : List (List Nat)) :
    Phase → Prop
  | .append done (batch :: rest) sealed =>
    (appendChunks segments (group.directory.file batch.writer.segmentId).bytes
      batch.writer.writeEnd (chunkPieces [] 0 batch.frames) results).1 = false →
        Releases (done ++ batch :: rest) sealed
  | _ => True

def Phase.SettlesSync (synced : Bool) : Phase → Prop
  | .sync done rest sealed => synced = false → Releases (done ++ rest) sealed
  | _ => True

def Phase.SettlesRecord (committed : Bool) : Phase → Prop
  | .record batches sealed =>
    if committed then ∀ batch ∈ batches.dropLast, batch.created = false
    else Releases batches sealed
  | _ => True

def Phase.SettlesUndo (outcome : UndoOutcome) : Phase → Prop
  | .undo (batch :: _) _ => batch.created = true ∨
      outcome.lookedUp = true ∧ (outcome.truncation = .truncated ∨ outcome.sealedRow = true)
  | _ => True

/-- The condition on a step of a group. A step that fails finds everything the group rolled over
among its batches, and a relocation whose creation fails has only segments it created; a group that
commits has rolled over no segment it created; and a segment with a row that is undone is looked up,
and cut back or sealed. -/
def Settles (limits : GroupCommitLimits) (segments : Nat) (group : GroupState) (leader : Leader) :
    Event → Prop
  | .layOut outcome => leader.phase.SettlesLayOut limits group leader.kind outcome
  | .append results => leader.phase.SettlesAppend segments group results
  | .sync synced => leader.phase.SettlesSync synced
  | .record committed => leader.phase.SettlesRecord committed
  | .undo outcome => leader.phase.SettlesUndo outcome
  | _ => True

section Decisions

variable (limits segments) (group : GroupState) (kind : GroupKind)

instance Phase.SettlesLayOut.decidable (outcome : CreateOutcome) :
    (phase : Phase) → Decidable (phase.SettlesLayOut limits group kind outcome)
  | .layOut (_ :: _) _ _ => inferInstanceAs (Decidable (_ → _ → ite _ _ _))
  | .layOut [] _ _ | .append _ _ _ | .sync _ _ _ | .record _ _ | .undo _ _ | .answer =>
    .isTrue trivial

instance Phase.SettlesAppend.decidable (results : List (List Nat)) :
    (phase : Phase) → Decidable (phase.SettlesAppend segments group results)
  | .append _ (_ :: _) _ => inferInstanceAs (Decidable (_ → _))
  | .append _ [] _ | .layOut _ _ _ | .sync _ _ _ | .record _ _ | .undo _ _ | .answer =>
    .isTrue trivial

instance Phase.SettlesSync.decidable (synced : Bool) :
    (phase : Phase) → Decidable (phase.SettlesSync synced)
  | .sync _ _ _ => inferInstanceAs (Decidable (_ → _))
  | .layOut _ _ _ | .append _ _ _ | .record _ _ | .undo _ _ | .answer => .isTrue trivial

instance Phase.SettlesRecord.decidable (committed : Bool) :
    (phase : Phase) → Decidable (phase.SettlesRecord committed)
  | .record _ _ => inferInstanceAs (Decidable (ite _ _ _))
  | .layOut _ _ _ | .append _ _ _ | .sync _ _ _ | .undo _ _ | .answer => .isTrue trivial

instance Phase.SettlesUndo.decidable (outcome : UndoOutcome) :
    (phase : Phase) → Decidable (phase.SettlesUndo outcome)
  | .undo (_ :: _) _ => inferInstanceAs (Decidable (_ ∨ _ ∧ _))
  | .undo [] _ | .layOut _ _ _ | .append _ _ _ | .sync _ _ _ | .record _ _ | .answer =>
    .isTrue trivial

end Decisions

instance Settles.decidable (limits : GroupCommitLimits) (segments : Nat) (group : GroupState)
    (leader : Leader) : (event : Event) → Decidable (Settles limits segments group leader event)
  | .layOut outcome => Phase.SettlesLayOut.decidable limits group leader.kind outcome leader.phase
  | .append results => Phase.SettlesAppend.decidable segments group results leader.phase
  | .sync synced => Phase.SettlesSync.decidable synced leader.phase
  | .record committed => Phase.SettlesRecord.decidable committed leader.phase
  | .undo outcome => Phase.SettlesUndo.decidable outcome leader.phase
  | .crash _ _ | .recover _ _ | .put _ _ | .sealActive _ | .relocate _ _ | .advance | .finish
  | .remove _ | .compact _ | .reclaim | .page _ | .resolve _ | .readBlock _ _ | .recheck _
  | .retire _ _ | .abandonCompaction _ | .unlink _ _ | .forget _ _ | .syncReclaim _ =>
    .isTrue trivial

/-! ## Steps of a group -/

theorem Agrees.goOn {after : GroupState} {leads : Leader} (agrees : Agrees group)
    (same : after.index = group.index) (leading : after.leader = some leads)
    (holds : ∀ segmentId, group.index.Active segmentId →
      leads.phase.Holds after.writer.active segmentId)
    (rolls : leads.phase.Rolls leads.kind) : Agrees after where
  single := by
    rw [same]
    exact agrees.single
  unled := by
    intro none
    rw [leading] at none
    cases none
  holds := by
    intro leader isLeader
    rw [leading] at isLeader
    cases isLeader
    rw [same]
    exact holds
  rolls := by
    intro leader isLeader
    rw [leading] at isLeader
    cases isLeader
    exact rolls

theorem GroupSound.inactive (sound : GroupSound hashBlock submitted group)
    (working : group.batches ≠ []) : group.writer.active = none := by
  cases active : group.writer.active with
  | none => rfl
  | some writer => exact absurd (sound.active writer active).2 working

theorem GroupSound.not_active_of_created (sound : GroupSound hashBlock submitted group)
    {batch : OpenBatch} (member : batch ∈ group.batches) (created : batch.created = true) :
    ¬group.index.Active batch.segmentId := by
  rintro ⟨durableEnd, row⟩
  rcases sound.opened.bases batch member with ⟨base, opens, _⟩
  rw [OpenBatch.From, if_pos created] at opens
  exact opens.2 _ _ row

theorem rollsOver_relocation {kind : GroupKind} {needed : Nat}
    (relocates : kind ≠ .ingest) (rolls : rollsOver limits kind writer batches needed = true) :
    batches ≠ [] := by
  rintro rfl
  cases kind with
  | ingest => exact relocates rfl
  | relocation compaction sources => cases rolls

theorem mem_ids_stageLast :
    segmentId ∈ (stageLast addedAt frame batches).map OpenBatch.segmentId ↔
      segmentId ∈ batches.map OpenBatch.segmentId := by
  rw [segmentIds_stageLast]

theorem mem_dropLast_stageLast {batch : OpenBatch}
    (member : batch ∈ (stageLast addedAt frame batches).dropLast) : batch ∈ batches.dropLast := by
  rcases eq_nil_or_concat batches with rfl | ⟨front, last, rfl⟩
  · cases member
  · rw [concat_eq_append] at member ⊢
    rw [stageLast_append, dropLast_concat] at member
    rw [dropLast_concat]
    exact member

theorem stageLast_ne_nil (some : batches ≠ []) :
    stageLast addedAt frame batches ≠ [] := by
  rcases eq_nil_or_concat batches with rfl | ⟨front, last, rfl⟩
  · exact absurd rfl some
  · rw [concat_eq_append, stageLast_append]
    exact append_ne_nil_of_right_ne_nil _ (cons_ne_nil _ _)

theorem Rolling.stage {kind : GroupKind} (rolling : Rolling kind batches sealed) (addedAt : Int)
    (frame : RecordFrame) : Rolling kind (stageLast addedAt frame batches) sealed where
  front := fun batch member => rolling.front batch (mem_dropLast_stageLast member)
  own := fun relocates segmentId listed =>
    mem_ids_stageLast.mpr (rolling.own relocates segmentId listed)

theorem Rolling.releases {kind : GroupKind} {rollOver : Bool}
    (rolling : Rolling kind batches sealed) (relocates : kind ≠ .ingest)
    (first : batches = [] → rollOver = false) :
    Releases batches (if rollOver then sealed ++ outgoing writer batches else sealed) := by
  intro segmentId listed
  split at listed
  · rename_i rolls
    rcases mem_append.mp listed with old | out
    · exact rolling.own relocates segmentId old
    · rcases eq_nil_or_concat batches with rfl | ⟨front, last, rfl⟩
      · exact absurd rolls (by rw [first rfl]; rintro ⟨⟩)
      · rw [concat_eq_append] at out ⊢
        rw [outgoing, getLast?_concat] at out
        rw [mem_singleton.mp out, map_append]
        exact mem_append_right _ (.head _)
  · exact rolling.own relocates segmentId listed

theorem Rolling.snoc {kind : GroupKind} {rollOver : Bool}
    {opening : OpenBatch} (rolling : Rolling kind batches sealed)
    (opens : batches = [] ∨ rollOver = true)
    (first : kind ≠ .ingest → batches = [] → rollOver = false) :
    Rolling kind (batches ++ [opening])
      (if rollOver then sealed ++ outgoing writer batches else sealed) where
  front := by
    intro batch member
    rw [dropLast_concat] at member
    rcases opens with rfl | rolls
    · cases member
    · rw [if_pos rolls]
      rcases eq_nil_or_concat batches with rfl | ⟨front, last, rfl⟩
      · cases member
      · rw [concat_eq_append] at member rolling ⊢
        rcases mem_append.mp member with sooner | isLast
        · apply mem_append_left
          apply rolling.front batch
          rw [dropLast_concat]
          exact sooner
        · apply mem_append_right
          rw [outgoing, getLast?_concat, mem_singleton.mp isLast]
          exact .head _
  own := by
    intro relocates segmentId listed
    rw [map_append]
    exact mem_append_left _ (rolling.releases relocates (first relocates) segmentId listed)

theorem Agrees.creationFailed {next : Nat} {rolled : List Nat}
    (agrees : Agrees group) (sound : GroupSound hashBlock submitted group)
    (working : group.batches = batches)
    (held : ∀ segmentId, group.index.Active segmentId →
      segmentId ∈ batches.map OpenBatch.segmentId ∨ segmentId ∈ rolled)
    (ingests : leader.kind = .ingest → Releases batches rolled)
    (relocates : leader.kind ≠ .ingest → (∀ batch ∈ batches, batch.created = true) ∧
      Releases batches rolled) :
    Agrees { group with
      directory := directory
      writer := { active := none, nextSegmentId := next }
      leader := leader.creationFailed batches } := by
  have inBatches : Releases batches rolled → ∀ segmentId, group.index.Active segmentId →
      segmentId ∈ batches.map OpenBatch.segmentId := by
    intro releases segmentId active
    rcases held segmentId active with here | out
    · exact here
    · exact releases segmentId out
  rw [Leader.creationFailed]
  split
  · rename_i kind
    refine agrees.goOn rfl rfl ?_ trivial
    exact fun segmentId active => .inl (inBatches (ingests kind) segmentId active)
  · rename_i kind
    have own := relocates (by rw [kind]; rintro ⟨⟩)
    refine ⟨agrees.single, ?_, by rintro _ ⟨⟩, by rintro _ ⟨⟩⟩
    intro _ segmentId active
    rcases mem_map.mp (inBatches own.2 segmentId active) with ⟨batch, member, rfl⟩
    exact absurd active (sound.not_active_of_created (working ▸ member) (own.1 batch member))

theorem Agrees.layOut {after : GroupState} {rest : List RecordFrame}
    {outcome : CreateOutcome} (agrees : Agrees group)
    (sound : GroupSound hashBlock submitted group) (leads : group.leader = some leader)
    (phase : leader.phase = .layOut (frame :: rest) batches sealed)
    (settles : Settles limits segments group leader (.layOut outcome))
    (made : group.layOut limits leader frame rest batches sealed outcome = some after) :
    Agrees after := by
  have working : group.batches = batches := by
    rw [GroupState.batches_of leads, phase]
    rfl
  have holds := agrees.holds leader leads
  have rolling := agrees.rolls leader leads
  rw [phase] at holds rolling
  rcases rolling with ⟨rolling, _⟩
  have idle : batches ≠ [] → group.writer.active = none := fun some =>
    sound.inactive (working.symm ▸ some)
  have first : leader.kind ≠ .ingest → batches = [] →
      rollsOver limits leader.kind group.writer batches frame.len = false := by
    intro relocates empty
    cases rolls : rollsOver limits leader.kind group.writer batches frame.len with
    | false => rfl
    | true => exact absurd empty (rollsOver_relocation relocates rolls)
  -- What was open before is among the batches or rolled over once a segment is created.
  have passes : ∀ rollOver : Bool, (if rollOver then none else group.writer.active) = none →
      ∀ segmentId, group.index.Active segmentId →
        segmentId ∈ batches.map OpenBatch.segmentId ∨ segmentId ∈
          if rollOver then sealed ++ outgoing group.writer batches else sealed := by
    intro rollOver created segmentId active
    rcases holds segmentId active with isActive | inBatch | rolled
    · cases rollOver with
      | false =>
        have none : group.writer.active = none := created
        rw [none] at isActive
        cases isActive
      | true =>
        right
        apply mem_append_right
        have empty : batches = [] := by
          by_contra some
          rw [idle some] at isActive
          cases isActive
        rw [outgoing, empty]
        dsimp only [getLast?_nil]
        rw [isActive]
        exact .head _
    · exact .inl inBatch
    · right
      split
      · exact mem_append_left _ rolled
      · exact rolled
  rw [Settles, phase, Phase.SettlesLayOut, GroupState.creates, GroupState.rolledOver] at settles
  unfold GroupState.layOut at made
  dsimp only at made
  generalize rollsOver limits leader.kind group.writer batches frame.len = rollOver
    at made settles first
  split at made
  · rename_i opens
    rw [Bool.or_eq_true, List.isEmpty_iff] at opens
    split at made
    · -- The segment an earlier group left open.
      rename_i active isActive
      cases made
      cases rollOver with
      | true => cases isActive
      | false =>
        have empty : batches = [] := opens.resolve_right (by rintro ⟨⟩)
        refine agrees.goOn rfl rfl ?_ ⟨(rolling.snoc (.inl empty) fun _ _ => rfl).stage _ _, ?_⟩
        · intro segmentId isOpen
          right
          left
          rw [mem_ids_stageLast, map_append]
          rcases holds segmentId isOpen with same | inBatch | rolled
          · apply mem_append_right
            have taken : group.writer.active = some active := isActive
            rw [taken] at same
            cases same
            exact .head _
          · exact mem_append_left _ inBatch
          · have forward := sound.phase leader leads
            rw [phase] at forward
            rw [forward.1.rolled.none empty] at rolled
            cases rolled
        · intro _
          apply stageLast_ne_nil
          exact append_ne_nil_of_right_ne_nil _ (cons_ne_nil _ _)
    · rename_i created
      split at made
      · cases made
      · rename_i directory _
        cases made
        have held := passes rollOver created
        have broken : outcome.succeeds = false → Agrees { group with
            directory := directory
            writer := { active := none, nextSegmentId := group.writer.nextSegmentId + 1 }
            leader := leader.creationFailed batches } := by
          intro fails
          have creates : (rollOver || (batches.isEmpty && group.writer.active.isNone)) = true := by
            cases rollOver with
            | true => rfl
            | false =>
              have empty : batches = [] := opens.resolve_right (by rintro ⟨⟩)
              have none : group.writer.active = none := created
              rw [empty, none]
              rfl
          have settled := settles creates fails
          refine agrees.creationFailed sound working held ?_ ?_
          · intro ingests
            rw [if_pos ingests] at settled
            exact settled
          · intro relocates
            rw [if_neg relocates] at settled
            exact ⟨settled, rolling.releases relocates (first relocates)⟩
        cases outcome with
        | created viaStage =>
          refine agrees.goOn rfl rfl ?_ ⟨(rolling.snoc opens first).stage _ _, ?_⟩
          · intro segmentId isOpen
            right
            rcases held segmentId isOpen with inBatch | rolled
            · left
              rw [mem_ids_stageLast, map_append]
              exact mem_append_left _ inBatch
            · exact .inr rolled
          · intro _
            apply stageLast_ne_nil
            exact append_ne_nil_of_right_ne_nil _ (cons_ne_nil _ _)
        | failed => exact broken rfl
        | leftStaged => exact broken rfl
        | leftUnpublished header => exact broken rfl
  · rename_i stays
    cases made
    rw [Bool.or_eq_true, not_or] at stays
    have some : batches ≠ [] := fun empty => stays.1 (List.isEmpty_iff.mpr empty)
    have same : (if rollOver then sealed ++ outgoing group.writer batches else sealed) = sealed :=
      if_neg stays.2
    rw [same]
    refine agrees.goOn rfl rfl ?_ ⟨rolling.stage _ _, fun _ => stageLast_ne_nil some⟩
    intro segmentId isOpen
    rcases holds segmentId isOpen with isActive | inBatch | rolled
    · exact .inl isActive
    · exact .inr (.inl (mem_ids_stageLast.mpr inBatch))
    · exact .inr (.inr rolled)

theorem Agrees.undone {after : GroupState} {leads : Leader} (agrees : Agrees group)
    (same : after.index = group.index) (leading : after.leader = some leads)
    (undoes : leads.phase = .undo batches none)
    (held : ∀ segmentId, group.index.Active segmentId →
      segmentId ∈ batches.map OpenBatch.segmentId ∨ segmentId ∈ sealed)
    (releases : Releases batches sealed) : Agrees after := by
  refine agrees.goOn same leading ?_ ?_
  · intro segmentId active
    rw [undoes]
    left
    rcases held segmentId active with here | rolled
    · exact here
    · exact releases segmentId rolled
  · rw [undoes]
    trivial

theorem Rolling.congr {kind : GroupKind} {changed : List OpenBatch}
    (rolling : Rolling kind batches sealed)
    (ids : changed.map OpenBatch.segmentId = batches.map OpenBatch.segmentId) :
    Rolling kind changed sealed where
  front := by
    intro batch member
    have listed : batch.segmentId ∈ changed.dropLast.map OpenBatch.segmentId :=
      mem_map_of_mem member
    rw [map_dropLast, ids, ← map_dropLast] at listed
    rcases mem_map.mp listed with ⟨old, inFront, same⟩
    rw [← same]
    exact rolling.front old inFront
  own := by
    rw [ids]
    exact rolling.own

variable {done rest : List OpenBatch} {batch : OpenBatch}

theorem ids_replaced {written : OpenBatch} (same : written.segmentId = batch.segmentId) :
    (done ++ written :: rest).map OpenBatch.segmentId =
      (done ++ batch :: rest).map OpenBatch.segmentId := by
  rw [map_append, map_append, map_cons, map_cons, same]

theorem Agrees.append {after : GroupState} {results : List (List Nat)} (agrees : Agrees group)
    (leads : group.leader = some leader)
    (phase : leader.phase = .append done (batch :: rest) sealed)
    (settles : Settles limits segments group leader (.append results))
    (made : group.append segments leader done batch rest sealed results = some after) :
    Agrees after := by
  have holds := agrees.holds leader leads
  have rolls := agrees.rolls leader leads
  rw [phase] at holds rolls
  rw [Settles, phase, Phase.SettlesAppend] at settles
  unfold GroupState.append at made
  dsimp only at made
  split at made
  · generalize appendChunks segments (group.directory.file batch.writer.segmentId).bytes
      batch.writer.writeEnd (chunkPieces [] 0 batch.frames) results = wrote at made settles
    cases made
    cases ok : wrote.1 with
    | true =>
      refine agrees.goOn rfl rfl ?_ ?_
      · intro segmentId active
        change segmentId ∈ ((done ++ [_]) ++ rest).map OpenBatch.segmentId ∨ _
        rw [append_assoc, singleton_append]
        rw [@ids_replaced done rest batch]
        · exact holds segmentId active
        · rfl
      · change Rolling leader.kind ((done ++ [_]) ++ rest) sealed ∧ (done ++ [_]) ++ rest ≠ []
        rw [append_assoc, singleton_append]
        exact ⟨rolls.1.congr (ids_replaced rfl),
          append_ne_nil_of_right_ne_nil _ (cons_ne_nil _ _)⟩
    | false =>
      refine @Agrees.undone group _ sealed _ _ agrees rfl rfl rfl ?_ ?_
      · intro segmentId active
        rw [@ids_replaced done rest batch]
        · exact holds segmentId active
        · rfl
      · intro segmentId rolled
        rw [@ids_replaced done rest batch]
        · exact settles ok segmentId rolled
        · rfl
  · cases made

theorem Agrees.sync {synced : Bool} (agrees : Agrees group) (leads : group.leader = some leader)
    (phase : leader.phase = .sync done (batch :: rest) sealed)
    (settles : Settles limits segments group leader (.sync synced)) :
    Agrees (group.sync leader done batch rest sealed synced) := by
  have holds := agrees.holds leader leads
  have rolls := agrees.rolls leader leads
  rw [phase] at holds rolls
  rw [Settles, phase, Phase.SettlesSync] at settles
  rw [GroupState.sync]
  split
  · refine agrees.goOn rfl rfl ?_ ?_
    · intro segmentId active
      change segmentId ∈ ((done ++ [batch]) ++ rest).map OpenBatch.segmentId ∨ _
      rw [append_assoc, singleton_append]
      exact holds segmentId active
    · change Rolling leader.kind ((done ++ [batch]) ++ rest) sealed ∧ (done ++ [batch]) ++ rest ≠ []
      rw [append_assoc, singleton_append]
      exact rolls
  · rename_i failed
    exact agrees.undone rfl rfl rfl holds (settles (Bool.eq_false_of_not_eq_true failed))

theorem Agrees.record {committed : Bool} (agrees : Agrees group)
    (leads : group.leader = some leader) (phase : leader.phase = .record batches sealed)
    (settles : Settles limits segments group leader (.record committed)) :
    Agrees (group.record leader batches sealed committed) := by
  have holds := agrees.holds leader leads
  have rolls := agrees.rolls leader leads
  rw [phase] at holds rolls
  rw [Settles, phase, Phase.SettlesRecord] at settles
  rw [GroupState.record]
  cases committed with
  | false => exact agrees.undone rfl rfl rfl holds settles
  | true =>
    rcases eq_nil_or_concat batches with rfl | ⟨front, last, rfl⟩
    · exact absurd rfl rolls.2
    · rw [concat_eq_append] at holds rolls settles ⊢
      rw [if_pos rfl, dropLast_concat] at settles
      have isLast : ∀ segmentId, (commitPlan group.index
          (groupPlan group.writer (front ++ [last]) sealed) leader.kind).Active segmentId →
            segmentId = last.segmentId := by
        intro segmentId active
        rcases active_commitPlan active with ⟨before, kept⟩ | ⟨append, listed, created, here⟩
        · rcases holds segmentId before with inBatch | rolled
          · rw [map_append] at inBatch
            rcases mem_append.mp inBatch with early | isLast
            · rcases mem_map.mp early with ⟨batch, member, rfl⟩
              refine absurd (rolls.1.front batch ?_) kept
              rw [dropLast_concat]
              exact member
            · exact mem_singleton.mp isLast
          · exact absurd rolled kept
        · rcases mem_map.mp listed with ⟨batch, member, rfl⟩
          rcases mem_append.mp member with early | isLast
          · have existing := settles batch early
            rw [OpenBatch.toAppend, existing] at created
            cases created
          · rw [mem_singleton.mp isLast] at here
            exact here.symm
      have stays : ∀ segmentId, (commitPlan group.index
          (groupPlan group.writer (front ++ [last]) sealed) leader.kind).Active segmentId →
            ((front ++ [last]).getLast?.map OpenBatch.writer).map SegmentWriter.segmentId =
              some segmentId := by
        intro segmentId active
        rw [isLast segmentId active, getLast?_concat]
        rfl
      rw [if_pos rfl]
      refine ⟨?_, by rintro ⟨⟩, ?_, ?_⟩
      · intro first second one two
        exact (isLast first one).trans (isLast second two).symm
      · intro leads isLeader
        cases isLeader
        exact stays
      · intro leads isLeader
        cases isLeader
        trivial

theorem Agrees.rollBackOne {outcome : UndoOutcome} {survivor : Option SegmentWriter}
    (agrees : Agrees group) (coherent : Coherent group.index)
    (sound : GroupSound hashBlock submitted group) (leads : group.leader = some leader)
    (phase : leader.phase = .undo (batch :: rest) survivor)
    (settles : Settles limits segments group leader (.undo outcome)) :
    Agrees (group.rollBackOne leader batch rest survivor outcome) := by
  have working : group.batches = batch :: rest := by
    rw [GroupState.batches_of leads, phase]
    rfl
  have holds := agrees.holds leader leads
  have stays := sound.phase leader leads
  rw [phase] at holds stays
  rw [Settles, phase, Phase.SettlesUndo] at settles
  have fresh : batch.created = true → ¬group.index.Active batch.segmentId :=
    sound.not_active_of_created (working ▸ .head _)
  -- What is active other than the segment undone now is still held.
  have others : ∀ segmentId, group.index.Active segmentId → segmentId ≠ batch.segmentId →
      segmentId ∈ rest.map OpenBatch.segmentId ∨
        survivor.map SegmentWriter.segmentId = some segmentId := by
    intro segmentId active apart
    rcases holds segmentId active with inRest | kept
    · rw [map_cons] at inRest
      exact .inl ((mem_cons.mp inRest).resolve_left apart)
    · exact .inr kept
  rw [GroupState.rollBackOne]
  dsimp only
  split
  · rename_i durableEnd recorded
    split
    · refine agrees.goOn rfl rfl ?_ trivial
      intro segmentId active
      by_cases here : segmentId = batch.segmentId
      · right
        cases survivor with
        | none =>
          rw [here]
          rfl
        | some writer =>
          rcases stays writer rfl with ⟨row, elsewhere⟩
          have same := agrees.single _ _ (here ▸ active) ⟨_, row⟩
          exact absurd same (elsewhere batch mem_cons_self)
      · rcases others segmentId active here with inRest | kept
        · exact .inl inRest
        · right
          cases survivor with
          | none => cases kept
          | some writer => exact kept
    · rename_i broken
      split
      · refine ⟨?_, by rintro ⟨⟩, ?_, ?_⟩
        · intro first second one two
          exact agrees.single first second (active_setSealed one).1 (active_setSealed two).1
        · intro leader isLeader segmentId active
          cases isLeader
          rcases active_setSealed active with ⟨before, apart⟩
          exact others segmentId before apart
        · intro leader isLeader
          cases isLeader
          trivial
      · rename_i unsealed
        refine agrees.goOn rfl rfl ?_ trivial
        intro segmentId active
        apply others segmentId active
        rintro rfl
        rcases settles with created | ⟨_, truncated | sealedRow⟩
        · exact fresh created active
        · exact broken truncated
        · exact unsealed sealedRow
  · rename_i unrecorded
    refine agrees.goOn rfl rfl ?_ trivial
    intro segmentId active
    apply others segmentId active
    rintro rfl
    rcases settles with created | ⟨lookedUp, _⟩
    · exact fresh created active
    · rcases active with ⟨durableEnd, row⟩
      have found := coherent.segment_of_row row
      rw [recordedEnd, if_pos lookedUp] at unrecorded
      cases unrecorded.symm.trans found

theorem Agrees.groupMove {after : GroupState} {event : Event} (agrees : Agrees group)
    (coherent : Coherent group.index) (sound : GroupSound hashBlock submitted group)
    (leads : group.leader = some leader)
    (settles : Settles limits segments group leader event)
    (move : GroupMove limits segments group leader event after) : Agrees after := by
  have holds := agrees.holds leader leads
  have rolls := agrees.rolls leader leads
  cases move with
  | layOut phase made => exact agrees.layOut sound leads phase settles made
  | laidOut phase =>
    rw [phase] at holds rolls
    have some := rolls.2 rfl
    refine agrees.goOn rfl rfl ?_ ⟨rolls.1, some⟩
    intro segmentId active
    rcases holds segmentId active with isActive | held
    · have working : group.batches ≠ [] := by
        rw [GroupState.batches_of leads, phase]
        exact some
      rw [sound.inactive working] at isActive
      cases isActive
    · exact held
  | appended phase =>
    rw [phase] at holds rolls
    dsimp only [Phase.Holds, Phase.Rolls] at holds rolls
    rw [append_nil] at holds rolls
    exact agrees.goOn rfl rfl holds rolls
  | synced phase =>
    rw [phase] at holds rolls
    dsimp only [Phase.Holds, Phase.Rolls] at holds rolls
    rw [append_nil] at holds rolls
    exact agrees.goOn rfl rfl holds rolls
  | append phase made => exact agrees.append leads phase settles made
  | sync phase => exact agrees.sync leads phase settles
  | record phase => exact agrees.record leads phase settles
  | undo phase => exact agrees.rollBackOne coherent sound leads phase settles

/-! ## Steps of the store -/

/-- The writer and the index agree while the store is open. -/
def Store.WriterAgrees (store : Store) : Prop :=
  ∀ handle, store.handle = some handle → Agrees (store.group handle)

/-- The condition on a step of the store: that of the group that leads, an active segment is sealed
in the index when the writer gives it up, and an open closes what it finds active. -/
def StoreSettles (limits : GroupCommitLimits) (segments : Nat) (store : Store) : Event → Prop
  | .sealActive committed => committed = true
  | .recover _ _ => ∀ row ∈ store.index.segments, row.state = .active →
      row.Closes store.index store.directory
  | event => ∀ handle ∈ store.handle, ∀ leader ∈ handle.leader,
      Settles limits segments (store.group handle) leader event

def OpensSettle (limits : GroupCommitLimits) (segments : Nat) (store : Store) : OpenEvent → Prop
  | .store event => StoreSettles limits segments store event
  | .interrupted _ _ _ | .lossyCrash _ _ => True

instance StoreSettles.decidable (limits : GroupCommitLimits) (segments : Nat) (store : Store) :
    (event : Event) → Decidable (StoreSettles limits segments store event)
  | .sealActive committed => inferInstanceAs (Decidable (committed = true))
  | .recover _ _ => inferInstanceAs (Decidable (∀ _ ∈ _, _ → _))
  | .layOut _ | .append _ | .sync _ | .record _ | .undo _ | .crash _ _ | .put _ _
  | .relocate _ _ | .advance | .finish | .remove _ | .compact _ | .reclaim | .page _ | .resolve _
  | .readBlock _ _ | .recheck _ | .retire _ _ | .abandonCompaction _ | .unlink _ _ | .forget _ _
  | .syncReclaim _ => inferInstanceAs (Decidable (∀ _ ∈ _, ∀ _ ∈ _, _))

instance OpensSettle.decidable (limits : GroupCommitLimits) (segments : Nat) (store : Store) :
    (event : OpenEvent) → Decidable (OpensSettle limits segments store event)
  | .store event => StoreSettles.decidable limits segments store event
  | .interrupted _ _ _ | .lossyCrash _ _ => .isTrue trivial

theorem Agrees.passive {before after : GroupState} (agrees : Agrees before)
    (passive : Passive before.index after.index) (writer : after.writer = before.writer)
    (leads : ∀ leader, after.leader = some leader → ∃ old, before.leader = some old ∧
      leader.phase = old.phase ∧ leader.kind = old.kind)
    (unled : after.leader = none → before.leader = none) : Agrees after where
  single := fun first second one two =>
    agrees.single first second (passive first one) (passive second two)
  unled := by
    intro none segmentId active
    rw [writer]
    exact agrees.unled (unled none) segmentId (passive segmentId active)
  holds := by
    intro leader isLeader segmentId active
    rcases leads leader isLeader with ⟨old, wasLeader, phase, _⟩
    rw [phase, writer]
    exact agrees.holds old wasLeader segmentId (passive segmentId active)
  rolls := by
    intro leader isLeader
    rcases leads leader isLeader with ⟨old, wasLeader, phase, kind⟩
    rw [phase, kind]
    exact agrees.rolls old wasLeader

theorem Agrees.passiveTask {before after : GroupState} (agrees : Agrees before)
    (passive : Passive before.index after.index) (writer : after.writer = before.writer)
    (same : after.leader = before.leader) : Agrees after := by
  refine agrees.passive passive writer ?_ ?_
  · intro leader isLeader
    exact ⟨leader, same ▸ isLeader, rfl, rfl⟩
  · intro none
    exact same ▸ none

theorem Agrees.begin {after : GroupState} (agrees : Agrees group) (unled : group.leader = none)
    (same : after.index = group.index) (writer : after.writer = group.writer)
    (leading : after.leader = some leader)
    (begins : leader.phase = .answer ∨ ∃ frame frames,
      leader.phase = .layOut (frame :: frames) [] []) :
    Agrees after := by
  have isOpen := agrees.unled unled
  rcases begins with phase | ⟨frame, frames, phase⟩
  · refine agrees.goOn same leading ?_ (phase ▸ trivial)
    intro segmentId active
    rw [phase, writer]
    exact isOpen segmentId active
  · refine agrees.goOn same leading ?_ ?_
    · intro segmentId active
      rw [phase, writer]
      exact .inl (isOpen segmentId active)
    · rw [phase]
      refine ⟨⟨?_, ?_⟩, ?_⟩
      · rintro batch ⟨⟩
      · rintro _ segmentId ⟨⟩
      · rintro ⟨⟩

theorem beginPut_phase (index : BlockIndex) (blocks : List Bytes) (addedAt : Int) :
    (beginPut hashBlock index blocks addedAt).phase = .answer ∨ ∃ frame frames,
      (beginPut hashBlock index blocks addedAt).phase = .layOut (frame :: frames) [] [] := by
  rw [beginPut]
  dsimp only
  split
  · exact .inl rfl
  · rename_i some
    rw [List.isEmpty_iff] at some
    rcases exists_cons_of_ne_nil some with ⟨frame, frames, same⟩
    exact .inr ⟨frame, frames, by rw [same]⟩

variable {store next : Store} {handle : Handle} {event : Event}

theorem Store.WriterAgrees.of_group {opened : Handle} (isOpen : next.handle = some opened)
    (agrees : Agrees (next.group opened)) : next.WriterAgrees := by
  intro handle same
  cases isOpen.symm.trans same
  exact agrees

theorem not_active_recover {removable stageRemovable : Nat → Bool}
    (coherent : Coherent index)
    (closes : ∀ row ∈ index.segments, row.state = .active → row.Closes index directory)
    (segmentId : Nat) :
    ¬(recover removable stageRemovable index directory).1.index.Active segmentId := by
  intro active
  have wasActive : index.Active segmentId := by
    rw [recover_eq_plan coherent.segments, RecoveryAction.index_run] at active
    exact passive_onIndexes index _ segmentId active
  rcases wasActive with ⟨_, row, listed, rfl, state, _⟩
  have closed := (@closed_slice_recover removable stageRemovable _ _ _ coherent listed).mpr
    (closes row listed state)
  rcases active with ⟨_, left, found, same, stays, _⟩
  exact closed.sealed left (mem_filter.mpr ⟨found, decide_eq_true same⟩) stays

theorem group_setStage (number : Nat) (stage : CompactionStage) :
    (handle.setStage number stage).writer = handle.writer ∧
      (handle.setStage number stage).leader = handle.leader := by
  rw [Handle.setStage]
  split <;> exact ⟨rfl, rfl⟩

theorem group_relocated (kind : GroupKind) (stage : CompactionStage) :
    (handle.relocated kind stage).writer = handle.writer := by
  cases kind with
  | ingest => rfl
  | relocation number sources => exact (group_setStage number stage).1

theorem Store.WriterAgrees.leaderMove (sound : Sound hashBlock store)
    (agrees : Agrees (store.group handle)) (opened : store.handle = some handle)
    (leads : handle.leader = some leader)
    (settles : Settles limits segments (store.group handle) leader event)
    (move : LeaderMove limits segments store handle leader event next) : next.WriterAgrees := by
  have group := sound.group handle opened
  cases move with
  | moved move =>
    exact .of_group rfl (agrees.groupMove sound.index.coherent group leads settles move)
  | broken move =>
    exact .of_group rfl (agrees.groupMove sound.index.coherent group leads settles move)
  | undone finishes phase =>
    have holds := agrees.holds leader leads
    rw [phase] at holds
    refine .of_group rfl ⟨agrees.single, ?_, by rintro _ ⟨⟩, by rintro _ ⟨⟩⟩
    intro _ segmentId active
    exact (holds segmentId active).resolve_left (by rintro ⟨⟩)
  | answered finishes phase =>
    have holds := agrees.holds leader leads
    rw [phase] at holds
    refine .of_group rfl ⟨agrees.single, ?_, by rintro _ ⟨⟩, by rintro _ ⟨⟩⟩
    intro _ segmentId active
    change (handle.relocated leader.kind .turn).writer.active.map _ = _
    rw [group_relocated]
    exact holds segmentId active

theorem Store.WriterAgrees.unled (agrees : Agrees (store.group handle))
    (unled : handle.leader = none) (settles : StoreSettles limits segments store event)
    (stepped : stepUnled hashBlock store handle event = some next) : next.WriterAgrees := by
  cases event with
  | put blocks addedAt =>
    cases stepped
    exact .of_group rfl (agrees.begin unled rfl rfl rfl (beginPut_phase _ _ _))
  | sealActive committed =>
    rcases Option.map_eq_some_iff.mp stepped with ⟨active, isActive, rfl⟩
    have sealed : committed = true := settles
    cases sealed
    refine .of_group rfl ⟨?_, ?_, ?_, ?_⟩
    · intro first second one two
      exact agrees.single first second (active_setSealed one).1 (active_setSealed two).1
    · intro _ segmentId stillActive
      rcases active_setSealed stillActive with ⟨before, apart⟩
      have isOpen := agrees.unled unled segmentId before
      change handle.writer.active.map _ = _ at isOpen
      rw [isActive] at isOpen
      cases isOpen
      exact absurd rfl apart
    · intro leads isLeader
      cases unled.symm.trans isLeader
    · intro leads isLeader
      cases unled.symm.trans isLeader
  | relocate number addedAt =>
    have writer := (@group_setStage handle number .relocating).1
    rw [stepUnled] at stepped
    split at stepped
    · cases stepped
      exact .of_group rfl (agrees.begin unled rfl writer rfl (.inr ⟨_, _, rfl⟩))
    · cases stepped
      exact .of_group rfl (agrees.begin unled rfl writer rfl (.inr ⟨_, _, rfl⟩))
    · cases stepped
  | _ => cases stepped

theorem passive_compactionMove {compaction : Compaction} {stage : CompactionStage}
    (move : CompactionMove hashBlock store compaction index stage) :
    Passive store.index index := by
  cases move with
  | quiet | resolved | copied | suspected => exact passive_refl _
  | corrupt | dropped => exact passive_removeBlocks _ _
  | retired => exact passive_retireEmptySegment _ _

theorem passive_reclaimMove {reclaim : Reclaim} {left : List Nat}
    (move : ReclaimMove store reclaim index directory left) : Passive store.index index := by
  cases move with
  | passed | unlinked | synced => exact passive_refl _
  | forgotten => exact passive_forgetSegment _ _

theorem StoreSettles.settles (settles : StoreSettles limits segments store event)
    (opened : store.handle = some handle) (leads : handle.leader = some leader) :
    Settles limits segments (store.group handle) leader event := by
  cases event with
  | sealActive | recover => trivial
  | _ => exact settles handle opened leader leads

theorem Store.WriterAgrees.step (agrees : store.WriterAgrees) (sound : Sound hashBlock store)
    (settles : StoreSettles limits segments store event)
    (stepped : Segments.step hashBlock limits segments store event = some next) :
    next.WriterAgrees := by
  cases StoreMove.of_step stepped with
  | crashed => rintro _ ⟨⟩
  | @recovered removable stageRemovable closed =>
    have none := @not_active_recover _ _ removable stageRemovable sound.index.coherent settles
    refine .of_group rfl ⟨?_, ?_, by rintro _ ⟨⟩, by rintro _ ⟨⟩⟩
    · intro first second active _
      exact absurd active (none first)
    · intro _ segmentId active
      exact absurd active (none segmentId)
  | @taken handle _ _ opened move =>
    have here := agrees handle opened
    cases move with
    | led leads move =>
      exact .leaderMove sound here opened leads (settles.settles opened leads) move
    | put unled | sealActive unled | relocate unled =>
      refine @Store.WriterAgrees.unled hashBlock _ _ _ _ _ _ here unled settles
        (Eq.trans ?_ stepped)
      simp only [Segments.step, opened, stepOpen, unled]
    | remove =>
      refine .of_group rfl (here.passive (passive_removeBlocks _ _) rfl ?_ ?_)
      · intro leader isLeader
        rcases Option.map_eq_some_iff.mp isLeader with ⟨old, wasLeader, rfl⟩
        exact ⟨old, wasLeader, rfl, rfl⟩
      · intro none
        exact Option.map_eq_none_iff.mp none
    | compact | reclaim => exact .of_group rfl (here.passiveTask (passive_refl _) rfl rfl)
    | compacted task found moves =>
      rcases moves with ⟨index, changed, move, rfl⟩
      exact .of_group rfl (here.passiveTask (passive_compactionMove move) rfl rfl)
    | reclaimed task found move =>
      exact .of_group rfl (here.passiveTask (passive_reclaimMove move) rfl rfl)

theorem Store.WriterAgrees.opens {event : OpenEvent} (agrees : store.WriterAgrees)
    (sound : Sound hashBlock store) (settles : OpensSettle limits segments store event)
    (stepped : stepOpens hashBlock limits segments store event = some next) :
    next.WriterAgrees := by
  cases event with
  | store event => exact agrees.step sound settles stepped
  | interrupted removable stageRemovable done =>
    rw [stepOpens] at stepped
    split at stepped
    · cases stepped
    · rename_i closed
      cases stepped
      intro handle opened
      cases closed.symm.trans opened
  | lossyCrash found stagedFound =>
    rw [stepOpens] at stepped
    split at stepped
    · cases stepped
      rintro _ ⟨⟩
    · cases stepped

/-- The condition on a run: no two blocks put in it hash alike, and what a step gives up is
closed. -/
def SettledOpens (hashBlock : Bytes → RawHash) (limits : GroupCommitLimits) (segments : Nat)
    (store : Store) (event : OpenEvent) : Prop :=
  OpensNoCollision hashBlock store event ∧ OpensSettle limits segments store event

instance SettledOpens.decidable (hashBlock : Bytes → RawHash) (limits : GroupCommitLimits)
    (segments : Nat) (store : Store) (event : OpenEvent) :
    Decidable (SettledOpens hashBlock limits segments store event) :=
  inferInstanceAs (Decidable (_ ∧ _))

/-- In every run whose groups, seals and opens close what they give up, whenever nobody leads at
most one segment is active, and it is the one the writer appends to next. -/
theorem writer_agrees_with_index (hashBlock : Bytes → RawHash) (limits : GroupCommitLimits)
    (segments : Nat) {events : List OpenEvent} {last : Store} {handle : Handle}
    (settled : Along (stepOpens hashBlock limits segments) (SettledOpens hashBlock limits segments) .fresh
      events)
    (ran : run (stepOpens hashBlock limits segments) .fresh events = some last)
    (opened : last.handle = some handle) (idle : handle.leader = none) :
    (∀ first second, last.index.Active first → last.index.Active second → first = second) ∧
      ∀ segmentId, last.index.Active segmentId →
        handle.writer.active.map SegmentWriter.segmentId = some segmentId := by
  have steps : ∀ store event next, Sound hashBlock store ∧ store.WriterAgrees →
      SettledOpens hashBlock limits segments store event →
      stepOpens hashBlock limits segments store event = some next →
      Sound hashBlock next ∧ next.WriterAgrees := by
    rintro store event next ⟨sound, agrees⟩ ⟨free, settles⟩ stepped
    exact ⟨sound.opens free stepped, agrees.opens sound settles stepped⟩
  have invariant := invariant_run steps ⟨sound_fresh, by rintro _ ⟨⟩⟩ settled ran
  have agrees := invariant.2 handle opened
  exact ⟨agrees.single, agrees.unled idle⟩

def onePut : List OpenEvent := recordedPut.map OpenEvent.store

def smallLimits : GroupCommitLimits := { segmentTargetBytes := 64 }

/-- The segment a second block needs cannot be created. -/
def brokenRollOver : List OpenEvent :=
  onePut ++ [.put [[2]] 1, .layOut .failed, .finish].map OpenEvent.store

def storeAfterRollOver : Store :=
  (run (stepOpens hashOfByte smallLimits maxWriteSegments) .fresh brokenRollOver).get (by decide)

def storeAfterPut : Store :=
  (run (stepOpens hashOfByte defaultLimits maxWriteSegments) .fresh onePut).get (by decide)

set_option maxRecDepth 4000 in
/-- The block that was put is in the segment the writer has open. -/
theorem writer_agrees_with_index_put :
    (∀ first second, storeAfterPut.index.Active first → storeAfterPut.index.Active second →
      first = second) ∧
    ∀ segmentId, storeAfterPut.index.Active segmentId →
      (storeAfterPut.handle.get (by decide)).writer.active.map SegmentWriter.segmentId =
        some segmentId :=
  writer_agrees_with_index hashOfByte defaultLimits maxWriteSegments
    (show Along _ _ _ onePut by decide) (Option.some_get _).symm (Option.some_get _).symm
    (by decide)

set_option maxRecDepth 4000 in
/-- A group that fails between giving up the open segment and sealing it leaves its row active. -/
theorem broken_rollover_leaves_active :
    ¬∀ (hashBlock : Bytes → RawHash) (limits : GroupCommitLimits) (segments : Nat)
        (events : List OpenEvent) (last : Store) (handle : Handle),
      Along (stepOpens hashBlock limits segments) (OpensNoCollision hashBlock) .fresh events →
      run (stepOpens hashBlock limits segments) .fresh events = some last →
      last.handle = some handle → handle.leader = none →
      (∀ first second, last.index.Active first → last.index.Active second → first = second) ∧
        ∀ segmentId, last.index.Active segmentId →
          handle.writer.active.map SegmentWriter.segmentId = some segmentId := by
  intro always
  have agrees := always hashOfByte smallLimits maxWriteSegments brokenRollOver storeAfterRollOver
    (storeAfterRollOver.handle.get (by decide)) (by decide) (Option.some_get _).symm
    (Option.some_get _).symm (by decide)
  have row : (⟨1, .active, 69, ⟨1, 1, 53⟩⟩ : SegmentRow) ∈ storeAfterRollOver.index.segments := by
    decide
  have isOpen := agrees.2 1 ⟨69, _, row, rfl, rfl, rfl⟩
  have none : (storeAfterRollOver.handle.get (by decide)).writer.active = none := by decide
  rw [none] at isOpen
  cases isOpen

end Yadorilink.Segments
