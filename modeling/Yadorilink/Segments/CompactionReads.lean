import Yadorilink.Segments.Durability

/-! What a compaction reads: a record it looked up stays readable where it was, whatever happens to
its segment in the meantime, so a compaction never drops a block. -/

namespace Yadorilink.Segments

open FileBytes GroupState List List.Subset

variable {hashBlock : Bytes → RawHash} {limits : GroupCommitLimits} {segments : Nat}
  {submitted more : List Bytes} {store : Store} {handle changed : Handle}
  {group after : GroupState} {leader : Leader} {event : Event} {segmentId stop : Nat}
  {hash : RawHash} {location : BlockLocation}

/-! ## Bytes that stay -/

/-- Nothing is written before `stop` in the segment: it is not about to be created, and what is
recorded of it ends behind. -/
structure Settled (group : GroupState) (segmentId stop : Nat) : Prop where
  below : segmentId < group.writer.nextSegmentId
  rows : ∀ state durableEnd, group.index.Row segmentId state durableEnd → stop ≤ durableEnd
  continued : ∀ batch ∈ group.batches, batch.segmentId = segmentId → batch.created = false

theorem file_setFile_other {directory : Directory} {other : Nat} {file : SegmentFile}
    (apart : segmentId ≠ other) :
    (directory.setFile other file).file segmentId = directory.file segmentId := by
  rw [Directory.setFile]
  exact if_neg apart

theorem file_createSegment_other {directory created : Directory} {other : Nat}
    {outcome : CreateOutcome} (apart : segmentId ≠ other)
    (made : directory.createSegment other outcome = some created) :
    created.file segmentId = directory.file segmentId := by
  cases outcome with
  | failed =>
    cases made
    rfl
  | leftStaged =>
    rw [Directory.createSegment] at made
    split at made
    · cases made
    · cases made
      rfl
  | leftUnpublished header =>
    rw [Directory.createSegment] at made
    split at made
    · cases made
    · cases made
      exact file_setFile_other apart
  | created viaStage =>
    rw [Directory.createSegment] at made
    split at made
    · cases made
    · cases made
      exact file_setFile_other apart

theorem Settled.stop_le (settled : Settled group segmentId stop)
    (sound : GroupSound hashBlock submitted group) {batch : OpenBatch}
    (member : batch ∈ group.batches) (same : batch.segmentId = segmentId) :
    stop ≤ batch.writer.writeEnd := by
  obtain ⟨base, opens, _, behind⟩ := sound.opened.bases batch member
  rw [OpenBatch.From, if_neg (Bool.eq_false_iff.mp (settled.continued batch member same))] at opens
  exact Nat.le_trans (settled.rows _ _ (same ▸ opens)) behind

theorem Settled.take_move (settled : Settled group segmentId stop)
    (sound : GroupSound hashBlock submitted group) (leads : group.leader = some leader)
    (long : stop ≤ (group.directory.file segmentId).bytes.length)
    (move : GroupMove limits segments group leader event after) :
    (after.directory.file segmentId).bytes.take stop =
      (group.directory.file segmentId).bytes.take stop := by
  generalize after.directory = directory, FileMove.of_move move = files
  cases files with
  | kept => rfl
  | created made => rw [file_createSegment_other (Nat.ne_of_lt settled.below) made]
  | @wrote done batch rest _ _ phase =>
    have member : batch ∈ group.batches := by
      rw [batches_of leads, phase]
      exact mem_append_right _ (.head _)
    by_cases same : segmentId = batch.segmentId
    · have behind := settled.stop_le sound member same.symm
      subst same
      rw [file_write]
      exact take_appendChunks behind long
    · rw [Directory.write, file_setFile_other same]
  | synced => exact keepsFile_syncFile.bytes long
  | cut phase recorded =>
    refine (keepsFile_truncate ?_ _).bytes long
    intro same
    rw [recordedEnd] at recorded
    split at recorded
    · obtain ⟨row, found, rfl⟩ := Option.map_eq_some_iff.mp recorded
      exact settled.rows _ _ (same ▸ row_of_segment found)
    · cases recorded
  | removed => rfl

theorem next_le_move (move : GroupMove limits segments group leader event after) :
    group.writer.nextSegmentId ≤ after.writer.nextSegmentId := by
  by_cases unrecorded : event = .record true
  · subst unrecorded
    cases move with
    | record => exact Nat.le_refl _
  · exact (Unrecorded.of_fails move (fails_of_move move unrecorded)).next

/-- The number and the origin of a segment stay what they are. -/
def Listed (batches : List OpenBatch) (batch : OpenBatch) : Prop :=
  ∃ old ∈ batches, old.segmentId = batch.segmentId ∧ old.created = batch.created

theorem listed_stageLast {batches : List OpenBatch} {addedAt : Int} {frame : RecordFrame}
    {batch : OpenBatch} (member : batch ∈ stageLast addedAt frame batches) :
    Listed batches batch := by
  rcases mem_stageLast member with ⟨old, listed, rfl | rfl⟩
  · exact ⟨batch, listed, rfl, rfl⟩
  · exact ⟨old, listed, rfl, rfl⟩

theorem origin_of_move (leads : group.leader = some leader)
    (move : GroupMove limits segments group leader event after) {batch : OpenBatch}
    (member : batch ∈ after.batches) :
    Listed group.batches batch ∨ batch.created = false ∨
      group.writer.nextSegmentId ≤ batch.segmentId := by
  have working := batches_of leads
  have subset : ∀ batches : List OpenBatch, batches ⊆ group.batches → batch ∈ batches →
      Listed group.batches batch := fun _ subset member => ⟨batch, subset member, rfl, rfl⟩
  cases move with
  | @layOut frame rest batches sealed outcome _ phase made =>
    rw [phase] at working
    unfold GroupState.layOut at made
    dsimp only at made
    split at made
    · split at made
      · cases made
        rw [batches_of rfl] at member
        obtain ⟨old, there, same, also⟩ := listed_stageLast member
        rcases mem_append.mp there with sooner | new
        · exact .inl ⟨old, working ▸ sooner, same, also⟩
        · rw [mem_singleton.mp new] at also
          exact .inr (.inl also.symm)
      · split at made
        · cases made
        · cases made
          cases outcome with
          | created viaStage =>
            rw [batches_of rfl] at member
            obtain ⟨old, there, same, also⟩ := listed_stageLast member
            rcases mem_append.mp there with sooner | new
            · exact .inl ⟨old, working ▸ sooner, same, also⟩
            · rw [mem_singleton.mp new] at same
              exact .inr (.inr (Nat.le_of_eq same))
          | failed | leftStaged | leftUnpublished =>
            rw [GroupState.batches] at member
            dsimp only at member
            rw [Leader.creationFailed] at member
            split at member
            · rename_i leads' same
              split at same
              · cases same
                exact .inl (subset _ (working ▸ refl _) member)
              · cases same
            · cases member
    · cases made
      rw [batches_of rfl] at member
      obtain ⟨old, there, same, also⟩ := listed_stageLast member
      exact .inl ⟨old, working ▸ there, same, also⟩
  | laidOut phase =>
    rw [phase] at working
    rw [batches_of rfl] at member
    exact .inl (subset _ (working ▸ refl _) member)
  | @appended done sealed phase =>
    rw [phase, Phase.batches, append_nil] at working
    rw [batches_of rfl] at member
    exact .inl (subset _ (working ▸ refl _) member)
  | @synced done sealed phase =>
    rw [phase, Phase.batches, append_nil] at working
    rw [batches_of rfl] at member
    exact .inl (subset _ (working ▸ refl _) member)
  | @append done next rest sealed results _ phase made =>
    rw [phase, Phase.batches] at working
    rw [GroupState.append] at made
    split at made
    · generalize appendChunks segments _ _ _ _ = wrote at made
      cases made
      rw [batches_of rfl] at member
      left
      rw [working]
      have split : batch ∈ done ∨ (batch.segmentId = next.segmentId ∧
          batch.created = next.created) ∨ batch ∈ rest := by
        dsimp only at member
        split at member
        · rcases mem_append.mp member with front | back
          · rcases mem_append.mp front with old | new
            · exact .inl old
            · rw [mem_singleton.mp new]
              exact .inr (.inl ⟨rfl, rfl⟩)
          · exact .inr (.inr back)
        · rcases mem_append.mp member with old | back
          · exact .inl old
          · rcases mem_cons.mp back with rfl | later
            · exact .inr (.inl ⟨rfl, rfl⟩)
            · exact .inr (.inr later)
      rcases split with old | ⟨same, also⟩ | later
      · exact ⟨batch, mem_append_left _ old, rfl, rfl⟩
      · exact ⟨next, mem_append_right _ (.head _), same.symm, also.symm⟩
      · exact ⟨batch, mem_append_right _ (.tail _ later), rfl, rfl⟩
    · cases made
  | @sync done next rest sealed synced phase =>
    rw [phase, Phase.batches] at working
    left
    rw [GroupState.sync] at member
    split at member
    · rw [batches_of rfl] at member
      refine subset _ ?_ member
      rw [working, Phase.batches, append_assoc]
      exact refl _
    · rw [batches_of rfl] at member
      exact subset _ (working ▸ refl _) member
  | record phase =>
    rw [phase, Phase.batches] at working
    rw [GroupState.record] at member
    split at member
    · cases member
    · rw [batches_of rfl] at member
      exact .inl (subset _ (working ▸ refl _) member)
  | @undo next rest survivor outcome phase =>
    rw [phase, Phase.batches] at working
    left
    have fewer : rest ⊆ group.batches := by
      rw [working]
      exact subset_cons_self ..
    rw [GroupState.rollBackOne] at member
    dsimp only at member
    split at member
    · split at member
      · exact subset _ fewer member
      · exact subset _ fewer member
    · exact subset _ fewer member

theorem Settled.move (settled : Settled group segmentId stop)
    (index : IndexSound hashBlock submitted group.index)
    (sound : GroupSound hashBlock submitted group) (leads : group.leader = some leader)
    (move : GroupMove limits segments group leader event after) :
    Settled after segmentId stop where
  below := Nat.lt_of_lt_of_le settled.below (next_le_move move)
  rows := by
    intro state durableEnd row
    by_cases unrecorded : event = .record true
    · subst unrecorded
      cases move with
      | @record batches sealed _ phase =>
        have working : group.batches = batches := by
          rw [batches_of leads, phase]
          rfl
        subst working
        rw [GroupState.record, if_pos rfl] at row
        rcases row_of_commitPlan sound.opened row with ⟨batch, listed, same, rfl⟩ |
          ⟨earlier, old, _⟩
        · exact settled.stop_le sound listed same
        · exact settled.rows earlier durableEnd old
    · obtain ⟨earlier, old, _⟩ := row_of_fails index.coherent sound leads move
        (fails_of_move move unrecorded) row
      exact settled.rows earlier durableEnd old
  continued := by
    intro batch member same
    rcases origin_of_move leads move member with ⟨old, there, sameId, also⟩ | continued | new
    · rw [← also]
      exact settled.continued old there (sameId.trans same)
    · exact continued
    · exact absurd settled.below (Nat.not_lt.mpr (same ▸ new))

/-! ## Tasks -/

/-- The record of a block a compaction looked up and has not read yet. -/
structure Sought (hashBlock : Bytes → RawHash) (submitted : List Bytes) (group : GroupState)
    (hash : RawHash) (location : BlockLocation) : Prop where
  filed : Filed hashBlock submitted (group.directory.file location.segmentId).bytes hash
    location.recordOffset location.length
  settled : Settled group location.segmentId (location.recordOffset + recordLen location.length)

/-- A segment whose file is gone for good. -/
structure Missing (group : GroupState) (segmentId : Nat) : Prop where
  absent : segmentId ∉ group.directory.names
  below : segmentId < group.writer.nextSegmentId

structure TasksDurable (hashBlock : Bytes → RawHash) (submitted : List Bytes)
    (group : GroupState) (handle : Handle) : Prop where
  copies : ∀ compaction ∈ handle.compactions, ∀ copy ∈ compaction.stage.copies,
    WasPut hashBlock submitted copy
  looking : ∀ compaction ∈ handle.compactions, ∀ hash location,
    compaction.stage.looking = some (hash, location) →
      Sought hashBlock submitted group hash location
  suspecting : ∀ compaction ∈ handle.compactions, ∀ hash location,
    compaction.stage.suspecting = some (hash, location) → Missing group location.segmentId

/-- What a step of anyone else leaves of the files and the numbers a compaction relies on. -/
structure Bystander (before after : GroupState) : Prop where
  settled : ∀ segmentId stop, Settled before segmentId stop → Settled after segmentId stop
  bytes : ∀ segmentId stop, Settled before segmentId stop →
    stop ≤ (before.directory.file segmentId).bytes.length →
    (after.directory.file segmentId).bytes.take stop =
      (before.directory.file segmentId).bytes.take stop
  missing : ∀ segmentId, Missing before segmentId → Missing after segmentId

theorem Bystander.move (index : IndexSound hashBlock submitted group.index)
    (sound : GroupSound hashBlock submitted group) (leads : group.leader = some leader)
    (move : GroupMove limits segments group leader event after) : Bystander group after where
  settled := fun _ _ settled => settled.move index sound leads move
  bytes := fun _ _ settled long => settled.take_move sound leads long move
  missing := fun _ missing => {
    absent := absent_move move missing.below missing.absent
    below := Nat.lt_of_lt_of_le missing.below (next_le_move move) }

theorem Bystander.of_rows
    (rows : ∀ segmentId state durableEnd, after.index.Row segmentId state durableEnd →
      ∃ earlier, group.index.Row segmentId earlier durableEnd)
    (names : after.directory.names ⊆ group.directory.names)
    (file : after.directory.file = group.directory.file)
    (next : after.writer.nextSegmentId = group.writer.nextSegmentId)
    (batches : after.batches ⊆ group.batches) : Bystander group after where
  settled := by
    intro segmentId stop settled
    refine ⟨next ▸ settled.below, ?_, ?_⟩
    · intro state durableEnd row
      obtain ⟨earlier, old⟩ := rows _ _ _ row
      exact settled.rows earlier durableEnd old
    · exact fun batch member => settled.continued batch (batches member)
  bytes := fun _ _ _ _ => by rw [file]
  missing := fun _ missing =>
    ⟨fun listed => missing.absent (names listed), next ▸ missing.below⟩

theorem Sought.bystander (sought : Sought hashBlock submitted group hash location)
    (bystander : Bystander group after) : Sought hashBlock submitted after hash location where
  filed := sought.filed.kept (bystander.bytes _ _ sought.settled sought.filed.within)
    (Nat.le_refl _)
  settled := bystander.settled _ _ sought.settled

section

variable (tasks : TasksDurable hashBlock submitted group handle)

include tasks

theorem TasksDurable.bystander
    (bystander : Bystander group after) (subset : submitted ⊆ more)
    (compactions : changed.compactions = handle.compactions) :
    TasksDurable hashBlock more after changed where
  copies := by
    rw [compactions]
    exact fun compaction listed copy member =>
      (tasks.copies compaction listed copy member).mono subset
  looking := by
    rw [compactions]
    intro compaction listed hash location looks
    have sought := (tasks.looking compaction listed hash location looks).bystander bystander
    exact ⟨sought.filed.mono subset, sought.settled⟩
  suspecting := by
    rw [compactions]
    exact fun compaction listed hash location suspects =>
      bystander.missing _ (tasks.suspecting compaction listed hash location suspects)

theorem TasksDurable.setCompaction
    {compaction : Compaction} (number : Nat)
    (copies : ∀ copy ∈ compaction.stage.copies, WasPut hashBlock submitted copy)
    (looking : ∀ hash location, compaction.stage.looking = some (hash, location) →
      Sought hashBlock submitted group hash location)
    (suspecting : ∀ hash location, compaction.stage.suspecting = some (hash, location) →
      Missing group location.segmentId) :
    TasksDurable hashBlock submitted group (handle.setCompaction number compaction) where
  copies := by
    intro other member
    rcases mem_or_eq_of_mem_set member with old | rfl
    · exact tasks.copies other old
    · exact copies
  looking := by
    intro other member
    rcases mem_or_eq_of_mem_set member with old | rfl
    · exact tasks.looking other old
    · exact looking
  suspecting := by
    intro other member
    rcases mem_or_eq_of_mem_set member with old | rfl
    · exact tasks.suspecting other old
    · exact suspecting

theorem TasksDurable.setStage
    {stage : CompactionStage} (number : Nat) (holds : stage.copies = [])
    (reads : stage.looking = none) (trusts : stage.suspecting = none) :
    TasksDurable hashBlock submitted group (handle.setStage number stage) := by
  rw [Handle.setStage]
  split
  · apply tasks.setCompaction number
    · intro copy member
      rw [holds] at member
      cases member
    · intro hash location looks
      rw [reads] at looks
      cases looks
    · intro hash location suspects
      rw [trusts] at suspects
      cases suspects
  · exact tasks

theorem TasksDurable.relocated
    {stage : CompactionStage} (kind : GroupKind) (holds : stage.copies = [])
    (reads : stage.looking = none) (trusts : stage.suspecting = none) :
    TasksDurable hashBlock submitted group (handle.relocated kind stage) := by
  cases kind with
  | ingest => exact tasks
  | relocation number sources => exact tasks.setStage number holds reads trusts

end

/-! ## Steps of a compaction -/

theorem Sought.of_lookup (index : IndexSound hashBlock submitted group.index)
    (sound : GroupSound hashBlock submitted group)
    (files : FilesSound hashBlock submitted group.index group.directory)
    (found : group.index.lookup hash = some location) :
    Sought hashBlock submitted group hash location := by
  obtain ⟨row, mapped, rfl⟩ := Option.map_eq_some_iff.mp found
  rcases Coherent.mem_of_lookupRow mapped with ⟨member, same⟩
  obtain ⟨state, durableEnd, segment, _, inside⟩ := index.coherent.row_of_mapped member
  refine ⟨same ▸ files.records row member, sound.rows _ _ _ segment, ?_, ?_⟩
  · intro other ends there
    rw [← (index.coherent.row_unique segment there).2]
    exact inside
  · intro batch listed isSegment
    have here : group.index.Row batch.segmentId state durableEnd := by
      rw [isSegment]
      exact segment
    exact (sound.opened.stop_le index.coherent listed here).1

theorem TasksDurable.compaction {compaction later : Compaction} {number : Nat}
    {index : BlockIndex} (tasks : TasksDurable hashBlock store.submitted (store.group handle) handle)
    (sound : IndexSound hashBlock store.submitted store.index)
    (groupSound : GroupSound hashBlock store.submitted (store.group handle))
    (files : FilesSound hashBlock store.submitted store.index store.directory)
    (found : handle.compactions[number]? = some compaction)
    (move : CompactionMove hashBlock store compaction index later.stage) :
    index.blocks = store.index.blocks ∧ TasksDurable hashBlock store.submitted (store.group handle)
        (handle.setCompaction number later) := by
  have listed := mem_of_getElem? found
  have held : ∀ copies, compaction.stage.copies = copies → ∀ copy ∈ copies,
      WasPut hashBlock store.submitted copy := by
    intro copies same copy member
    exact tasks.copies compaction listed copy (same ▸ member)
  have reads : ∀ row rest location tries copies,
      compaction.stage = .page (row :: rest) (.located location tries) copies →
      ∃ block ∈ store.submitted, hashBlock block = row.hash ∧ block.length < 2 ^ 32 ∧
        readRecordPayload (store.directory.file location.segmentId).bytes location row.hash =
          .ok block := by
    intro row rest location tries copies stage
    have sought := tasks.looking compaction listed row.hash location (by rw [stage]; rfl)
    exact sought.filed.reads
  have result : later.stage.copies ⊆ compaction.stage.copies →
      later.stage.looking = none → later.stage.suspecting = none →
      TasksDurable hashBlock store.submitted (store.group handle)
        (handle.setCompaction number later) := by
    intro fewer looks trusts
    apply tasks.setCompaction number
    · exact fun copy member => tasks.copies compaction listed copy (fewer member)
    · intro hash location looking
      rw [looks] at looking
      cases looking
    · intro hash location suspects
      rw [trusts] at suspects
      cases suspects
  generalize isStage : later.stage = stage at move result
  cases move with
  | quiet fewer looks trusts => exact ⟨rfl, result fewer looks trusts⟩
  | @resolved row rest tries copies location stage isFound =>
    refine ⟨rfl, tasks.setCompaction number ?_ ?_ ?_⟩
    · rw [isStage]
      apply held
      rw [stage]
      rfl
    · rw [isStage]
      intro hash place looks
      cases looks
      exact Sought.of_lookup sound groupSound files isFound
    · rw [isStage]
      exact nofun
  | @copied row rest location tries copies payload stage before read verified holds looks trusts =>
    obtain ⟨block, put, hashed, short, same⟩ := reads _ _ _ _ _ before
    rw [read] at same
    cases same
    refine ⟨rfl, tasks.setCompaction number ?_ ?_ ?_⟩
    · rw [isStage, holds]
      exact forall_mem_concat (held copies (by rw [before]; rfl)) ⟨put, hashed, short⟩
    · rw [isStage, looks]
      exact nofun
    · rw [isStage, trusts]
      exact nofun
  | @suspected row rest location tries copies before lost =>
    obtain ⟨block, _, _, _, same⟩ := reads _ _ _ _ _ before
    have sought := tasks.looking compaction listed row.hash location (by rw [before]; rfl)
    refine ⟨rfl, tasks.setCompaction number ?_ ?_ ?_⟩
    · rw [isStage]
      apply held
      rw [before]
      rfl
    · rw [isStage]
      exact nofun
    · rw [isStage]
      intro hash place suspects
      cases suspects
      rcases lost with absent | ⟨error, failed⟩
      · exact ⟨absent, sought.settled.below⟩
      · rw [failed] at same
        cases same
  | corrupt before read differs =>
    obtain ⟨block, _, hashed, _, same⟩ := reads _ _ _ _ _ before
    rw [read] at same
    cases same
    exact absurd hashed differs
  | @dropped row rest location tries copies before still =>
    have missing := tasks.suspecting compaction listed row.hash location (by rw [before]; rfl)
    obtain ⟨mapped, isMapped, rfl⟩ := Option.map_eq_some_iff.mp still
    rcases Coherent.mem_of_lookupRow isMapped with ⟨member, _⟩
    obtain ⟨state, durableEnd, segment, live, _⟩ := sound.coherent.row_of_mapped member
    exact absurd (files.files _ _ _ segment live).named missing.absent
  | retired => exact ⟨rfl, result (nil_subset _) rfl rfl⟩

end Yadorilink.Segments
