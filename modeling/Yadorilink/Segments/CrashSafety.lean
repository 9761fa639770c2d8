import Yadorilink.Segments.CompactionReads

/-! The store is crash safe: whatever is mapped is a whole record of a block that was put, and
whatever was put and not deleted is mapped, in every state of every run with crashes and
recoveries, as long as no write is cut twice inside one piece and no undo removes the file of a
recorded segment. -/

namespace Yadorilink.Segments

open Machine FileBytes GroupState List Option List.Subset

variable {recovering : Recovering} {changed : Handle}

variable {hashBlock : Bytes → RawHash} {limits : GroupCommitLimits} {segments : Nat}
  {submitted : List Bytes} {index : BlockIndex} {directory : Directory}
  {store next last : Store} {handle : Handle} {leader : Leader} {event : Event}
  {found : List (Nat × Bytes)} {segmentId : Nat}

/-! ## Crashes -/

theorem find?_eq_of_nodup {entry : Nat × Bytes} (distinct : (found.map Prod.fst).Nodup)
    (member : entry ∈ found) : (found.find? fun other => other.1 = entry.1) = some entry := by
  induction found with
  | nil => cases member
  | cons first found induction =>
    rw [map_cons, nodup_cons] at distinct
    rw [find?_cons]
    rcases mem_cons.mp member with rfl | later
    · rw [decide_eq_true rfl]
    · have differ : first.1 ≠ entry.1 := fun same =>
        distinct.1 (same ▸ mem_map_of_mem later)
      rw [decide_eq_false differ]
      exact induction distinct.2 later

theorem OnDisk.crashed {stagedFound : List Nat} {stop : Nat}
    (onDisk : OnDisk directory segmentId stop) (survives : Survives directory found stagedFound) :
    OnDisk (.afterCrash found stagedFound) segmentId stop ∧
      ((Directory.afterCrash found stagedFound).file segmentId).bytes.take stop =
        (directory.file segmentId).bytes.take stop := by
  obtain ⟨distinct, listed, kept, _⟩ := survives
  have there := (listed segmentId onDisk.named).resolve_left onDisk.published
  obtain ⟨entry, member, rfl⟩ := mem_map.mp there
  rcases (kept entry member).resolve_left onDisk.linked with ⟨_, long, same⟩
  have file : (Directory.afterCrash found stagedFound).file entry.1 =
      ⟨entry.2, entry.2.length⟩ := by
    rw [Directory.afterCrash]
    dsimp only
    rw [find?_eq_of_nodup distinct member]
  have reaches : stop ≤ entry.2.length := Nat.le_trans onDisk.synced long
  refine ⟨⟨⟨there, not_mem_nil, not_mem_nil, ?_⟩, ?_⟩, ?_⟩
  · rw [file]
    exact reaches
  · rw [file]
    exact reaches
  · rw [file]
    have shorter := congrArg (List.take stop) same
    rw [take_take, take_take, Nat.min_eq_left onDisk.synced] at shorter
    exact shorter

theorem FilesSound.crashed {stagedFound : List Nat}
    (files : FilesSound hashBlock submitted index directory) (coherent : Coherent index)
    (survives : Survives directory found stagedFound) :
    FilesSound hashBlock submitted index (.afterCrash found stagedFound) where
  files := fun segmentId state durableEnd row live =>
    ((files.files segmentId state durableEnd row live).crashed survives).1
  records := by
    intro row mapped
    obtain ⟨state, durableEnd, segment, live, inside⟩ := coherent.row_of_mapped mapped
    have same := ((files.files _ _ _ segment live).crashed survives).2
    exact (files.records row mapped).kept same inside

/-! ## Recovery -/

/-- How far recovery is: the files keep what is recorded, no mapping is dropped, and rows are only
dropped or closed. -/
structure Reconciled (hashBlock : Bytes → RawHash) (submitted : List Bytes) (index : BlockIndex)
    (recovering : Recovering) : Prop where
  files : FilesSound hashBlock submitted index recovering.directory
  blocks : recovering.index.blocks = index.blocks
  rows : ∀ segmentId state durableEnd, recovering.index.Row segmentId state durableEnd →
    ∃ earlier, index.Row segmentId earlier durableEnd ∧ (earlier = .retired → state = .retired)

theorem Reconciled.recoverRow {row : SegmentRow}
    (reconciled : Reconciled hashBlock submitted index recovering) (coherent : Coherent index)
    (removable : Nat → Bool) (listed : row ∈ index.segments) :
    Reconciled hashBlock submitted index (Segments.recoverRow removable recovering row) := by
  have here : index.Row row.segmentId row.state row.durableEnd := ⟨row, listed, rfl, rfl, rfl⟩
  rw [Segments.recoverRow]
  split
  · rename_i retired
    split
    · exact reconciled
    · have unmapped : recovering.index.blocks.filter
          (fun block => decide (block.segmentId ≠ row.segmentId)) = recovering.index.blocks := by
        apply filter_eq_self.mpr
        intro block member
        rw [reconciled.blocks] at member
        exact decide_eq_true (coherent.unmapped_of_retired listed retired member)
      refine ⟨?_, ?_, ?_⟩
      · dsimp only
        split
        · apply reconciled.files.keep coherent
          intro segmentId state durableEnd other live
          apply keepsFile_removePath
          intro same
          subst same
          exact live ((coherent.row_unique other here).1.trans retired)
        · exact reconciled.files
      · exact unmapped.trans reconciled.blocks
      · intro segmentId state durableEnd other
        exact reconciled.rows _ _ _ (row_forgetSegment.mp other).2
  · rename_i live
    have onDisk := reconciled.files.files _ _ _ here live
    split
    · rename_i absent
      exact absurd onDisk.named absent
    · split
      · refine ⟨?_, reconciled.blocks, reconciled.rows⟩
        apply reconciled.files.keep coherent
        intro segmentId state durableEnd other _
        refine keepsFile_truncate ?_ .truncated
        intro same
        subst same
        exact Nat.le_of_eq (coherent.row_unique other here).2
      · split
        · rename_i short
          exact absurd onDisk.long (Nat.not_le.mpr short)
        · exact reconciled

theorem Reconciled.reconcile {rows : List SegmentRow}
    (reconciled : Reconciled hashBlock submitted index recovering) (coherent : Coherent index)
    (removable : Nat → Bool) (listed : rows ⊆ index.segments) :
    Reconciled hashBlock submitted index
      (rows.foldl (Segments.recoverRow removable) recovering) := by
  induction rows generalizing recovering with
  | nil => exact reconciled
  | cons row rows induction =>
    have first := reconciled.recoverRow coherent removable (listed (.head _))
    exact induction first fun other member => listed (.tail row member)

theorem Reconciled.removeOrphans {known : List Nat}
    (reconciled : Reconciled hashBlock submitted index recovering) (coherent : Coherent index)
    (removable stageRemovable : Nat → Bool)
    (names : ∀ row ∈ index.segments, row.segmentId ∈ known) :
    Reconciled hashBlock submitted index { recovering with
        directory := (Segments.removeOrphans removable stageRemovable known
          recovering.directory).sync } where
  files := by
    apply reconciled.files.keep coherent
    intro segmentId state durableEnd row _
    obtain ⟨row, listed, rfl, _⟩ := row
    refine .of_same ?_ nofun nofun rfl
    intro there
    apply mem_filter.mpr
    refine ⟨there, ?_⟩
    rw [decide_eq_true (names row listed), Bool.true_or]
  blocks := reconciled.blocks
  rows := reconciled.rows

theorem Reconciled.foldl {change : BlockIndex → SegmentRow → BlockIndex} {rows : List SegmentRow}
    (reconciled : Reconciled hashBlock submitted index recovering)
    (blocks : ∀ middle row, (change middle row).blocks = middle.blocks)
    (each : ∀ middle, ∀ row ∈ index.segments, ∀ segmentId state durableEnd,
      (∀ before ends, middle.Row segmentId before ends → ∃ earlier,
        index.Row segmentId earlier ends ∧ (earlier = .retired → before = .retired)) →
      (change middle row).Row segmentId state durableEnd →
        ∃ earlier, index.Row segmentId earlier durableEnd ∧ (earlier = .retired → state = .retired))
    (listed : rows ⊆ index.segments) :
    Reconciled hashBlock submitted index
      { recovering with index := rows.foldl change recovering.index } := by
  induction rows generalizing recovering with
  | nil => exact reconciled
  | cons row rows induction =>
    have first : Reconciled hashBlock submitted index
        { recovering with index := change recovering.index row } := {
      files := reconciled.files
      blocks := (blocks _ _).trans reconciled.blocks
      rows := by
        intro segmentId state durableEnd changed
        exact each _ row (listed (.head _)) _ _ _
          (fun before ends there => reconciled.rows _ _ _ there) changed }
    exact induction first fun other member => listed (.tail row member)

theorem rows_retireEmptySegment {middle : BlockIndex} {other durableEnd : Nat}
    {state : SegmentState} (known : ∀ before ends, middle.Row segmentId before ends → ∃ earlier,
      index.Row segmentId earlier ends ∧ (earlier = .retired → before = .retired))
    (changed : (middle.retireEmptySegment other).Row segmentId state durableEnd) :
    ∃ earlier, index.Row segmentId earlier durableEnd ∧ (earlier = .retired → state = .retired) := by
  obtain ⟨before, old, stays⟩ :=
    (undisturbed_retireEmptySegment middle other).rows _ _ _ changed
  obtain ⟨earlier, first, sooner⟩ := known _ _ old
  exact ⟨earlier, first, fun retired => stays (sooner retired)⟩

theorem Reconciled.recover (files : FilesSound hashBlock submitted index directory)
    (coherent : Coherent index) (removable stageRemovable : Nat → Bool) :
    Reconciled hashBlock submitted index
      (Segments.recover removable stageRemovable index directory).1 := by
  have start : Reconciled hashBlock submitted index ⟨index, directory⟩ := {
    files := files
    blocks := rfl
    rows := fun _ state _ row => ⟨state, row, id⟩ }
  have reconciled := start.reconcile coherent removable (refl _)
  have swept := reconciled.removeOrphans coherent removable stageRemovable
    fun row listed => mem_map_of_mem listed
  have closed := swept.foldl (fun middle row => by
      show (closeRow middle row).blocks = middle.blocks
      rw [closeRow]
      split
      · split <;> rfl
      · rfl)
    (by
      intro middle row listed segmentId state durableEnd known changed
      rw [closeRow] at changed
      split at changed
      · rename_i active
        split at changed
        · exact rows_retireEmptySegment known changed
        · obtain ⟨before, old, rfl⟩ := row_setSegmentState.mp changed
          obtain ⟨earlier, first, sooner⟩ := known _ _ old
          refine ⟨earlier, first, fun retired => ?_⟩
          split
          · -- The row that is sealed was the active one.
            rename_i same
            subst same
            have isRow : index.Row row.segmentId row.state row.durableEnd :=
              ⟨row, listed, rfl, rfl, rfl⟩
            rw [active] at isRow
            have impossible := (coherent.row_unique first isRow).1
            rw [retired] at impossible
            cases impossible
          · exact sooner retired
      · exact known _ _ changed)
    (refl _)
  have retired := closed.foldl (fun middle row => by
      show (retireRow middle row).blocks = middle.blocks
      rw [retireRow]
      split <;> rfl)
    (by
      intro middle row listed segmentId state durableEnd known changed
      rw [retireRow] at changed
      split at changed
      · exact rows_retireEmptySegment known changed
      · exact known _ _ changed)
    (refl _)
  exact retired

theorem FilesSound.recovered (files : FilesSound hashBlock submitted index directory)
    (coherent : Coherent index) (removable stageRemovable : Nat → Bool) :
    FilesSound hashBlock submitted
      (Segments.recover removable stageRemovable index directory).1.index
      (Segments.recover removable stageRemovable index directory).1.directory := by
  have reconciled := Reconciled.recover files coherent removable stageRemovable
  apply reconciled.files.transaction reconciled.rows
  rw [reconciled.blocks]
  exact refl _

/-! ## The invariant -/

structure Durable (hashBlock : Bytes → RawHash) (store : Store) : Prop where
  sound : Sound hashBlock store
  files : FilesSound hashBlock store.submitted store.index store.directory
  owed : ∀ hash ∈ store.owed, store.index.Mapped hash
  leader : ∀ handle, store.handle = some handle → ∀ leader, handle.leader = some leader →
    leader.phase.Durable hashBlock store.submitted store.directory leader.addedAt ∧
      leader.Answers store.index
  tasks : ∀ handle, store.handle = some handle →
    TasksDurable hashBlock store.submitted (store.group handle) handle

theorem durable_fresh : Durable hashBlock Store.fresh where
  sound := sound_fresh
  files := {
    files := by
      intro segmentId state durableEnd row
      obtain ⟨_, listed, _⟩ := row
      cases listed
    records := nofun }
  owed := nofun
  leader := nofun
  tasks := nofun

def Store.appending (store : Store) : Option OpenBatch :=
  match (store.handle.bind Handle.leader).map Leader.phase with
  | some (.append _ (batch :: _) _) => some batch
  | _ => none

/-- The condition on a run: no two blocks put hash alike, each is shorter than 4 GiB, no write is
cut twice inside one piece, and no undo that cannot read the index removes the file of a segment
with a row. -/
def Unharmed (hashBlock : Bytes → RawHash) (store : Store) : Event → Prop
  | .put blocks _ =>
    CollisionFree hashBlock (store.submitted ++ blocks) ∧ ∀ block ∈ blocks, block.length < 2 ^ 32
  | .append results =>
    ¬∃ batch ∈ store.appending, CutsChunk (chunkPieces [] 0 batch.frames) results
  | .undo outcome =>
    ¬(outcome.lookedUp = false ∧ outcome.removed = true ∧
      ∃ segmentId ∈ store.undoing, (store.index.segment segmentId).isSome)
  | _ => True

instance Unharmed.decidable (store : Store) (event : Event) :
    Decidable (Unharmed hashBlock store event) :=
  match event with
  | .put blocks _ => inferInstanceAs (Decidable (CollisionFree hashBlock
      (store.submitted ++ blocks) ∧ ∀ block ∈ blocks, block.length < 2 ^ 32))
  | .append results => inferInstanceAs (Decidable
      (¬∃ batch ∈ store.appending, CutsChunk (chunkPieces [] 0 batch.frames) results))
  | .undo outcome => inferInstanceAs (Decidable (¬(outcome.lookedUp = false ∧
      outcome.removed = true ∧
        ∃ segmentId ∈ store.undoing, (store.index.segment segmentId).isSome)))
  | .relocate _ _ | .layOut _ | .advance | .sync _ | .finish | .sealActive _ | .remove _
  | .record _ | .recover _ _ | .crash _ _ | .compact _ | .page _ | .resolve _ | .readBlock _ _
  | .recheck _ | .retire _ _ | .abandonCompaction _ | .reclaim | .unlink _ _ | .forget _ _
  | .syncReclaim _ => .isTrue trivial

theorem Unharmed.noCollision (unharmed : Unharmed hashBlock store event) :
    NoCollision hashBlock store event := by
  cases event with
  | put => exact unharmed.1
  | _ => trivial

theorem Unharmed.not_cuts (unharmed : Unharmed hashBlock store event)
    (opened : store.handle = some handle) (leads : handle.leader = some leader) :
    ¬leader.Cuts event := by
  cases event with
  | append results =>
    intro cuts
    rw [Leader.Cuts] at cuts
    split at cuts
    · rename_i batch _ _ phase
      refine unharmed ⟨batch, ?_, cuts⟩
      rw [Store.appending, opened, bind_some, leads, map_some, phase]
      rfl
    · exact cuts
  | _ => exact not_false

theorem Unharmed.not_erases (unharmed : Unharmed hashBlock store event)
    (coherent : Coherent store.index) (opened : store.handle = some handle)
    (leads : handle.leader = some leader) {durableEnd : Nat} {state : SegmentState}
    (row : store.index.Row segmentId state durableEnd) : ¬leader.Erases segmentId event := by
  cases event with
  | undo outcome =>
    intro erases
    obtain ⟨notRead, removed, undoing⟩ := erases
    refine unharmed ⟨notRead, removed, segmentId, ?_, ?_⟩
    · rw [Store.undoing, opened, bind_some, leads, bind_some, undoing]
      rfl
    · have found := coherent.segment_of_row row
      cases isFound : store.index.segment segmentId with
      | none =>
        rw [isFound] at found
        cases found
      | some row => rfl
  | _ => exact not_false

/-! ## Steps -/

theorem Durable.withGroup {group : GroupState}
    (durable : Durable hashBlock store) (sound : Sound hashBlock (store.withGroup changed group))
    (opened : store.handle = some handle) (leads : handle.leader = some leader)
    (unharmed : Unharmed hashBlock store event)
    (move : GroupMove limits segments (store.group handle) leader event group)
    (tasks : TasksDurable hashBlock store.submitted (store.group handle) changed) :
    Durable hashBlock (store.withGroup changed group) := by
  have index := durable.sound.index
  have groupSound := durable.sound.group handle opened
  rcases durable.leader handle opened leader leads with ⟨phase, answers⟩
  exact {
    sound := sound
    files := by
      apply @FilesSound.move _ _ _ _ (store.group handle) _ _ _ durable.sound.free index groupSound
        leads durable.files phase move
      exact fun _ _ _ row => unharmed.not_erases index.coherent opened leads row
    owed := fun hash member =>
      mapped_move durable.sound.free index groupSound leads move (durable.owed hash member)
    leader := by
      intro current same leads' led
      cases same
      exact ⟨phase.move groupSound leads durable.files move (unharmed.not_cuts opened leads) led,
        answers.move durable.sound.free index groupSound leads move led⟩
    tasks := by
      intro current same
      cases same
      exact tasks.bystander (Bystander.move index groupSound leads move) (refl _) rfl }

theorem Durable.unled (durable : Durable hashBlock store) (handle : Handle)
    {owed : List RawHash}
    (sound : Sound hashBlock { store with handle := some changed, owed := owed })
    (owes : ∀ hash ∈ owed, store.index.Mapped hash)
    (unled : changed.leader = none)
    (numbers : changed.writer.nextSegmentId = handle.writer.nextSegmentId)
    (tasks : TasksDurable hashBlock store.submitted (store.group handle) changed) :
    Durable hashBlock { store with handle := some changed, owed := owed } where
  sound := sound
  files := durable.files
  owed := owes
  leader := by
    intro current same leader leads
    cases same
    rw [unled] at leads
    cases leads
  tasks := by
    intro current same
    cases same
    refine tasks.bystander (.of_rows ?_ ?_ ?_ ?_ ?_) (refl _) rfl
    · exact fun _ state _ row => ⟨state, row⟩
    · exact refl _
    · rfl
    · exact numbers
    · apply batches_subset_of_unled
      exact unled

theorem nextSegmentId_relocated (kind : GroupKind) (stage : CompactionStage) :
    (handle.relocated kind stage).writer.nextSegmentId = handle.writer.nextSegmentId := by
  cases kind with
  | ingest => rfl
  | relocation number sources =>
    rw [Handle.relocated, Handle.setStage]
    split <;> rfl

theorem Durable.leaderStep (durable : Durable hashBlock store)
    (opened : store.handle = some handle) (leads : handle.leader = some leader)
    (unharmed : Unharmed hashBlock store event)
    (move : LeaderMove limits segments store handle leader event next) :
    Durable hashBlock next := by
  have sound := durable.sound.leaderStep opened leads move
  have tasks := durable.tasks handle opened
  cases move with
  | moved move => exact durable.withGroup sound opened leads unharmed move tasks
  | broken move =>
    exact durable.withGroup sound opened leads unharmed move
      (tasks.relocated leader.kind rfl rfl rfl)
  | undone =>
    refine durable.unled handle sound durable.owed rfl rfl ?_
    have ended : TasksDurable hashBlock store.submitted (store.group handle)
        (handle.relocated leader.kind .ended) := tasks.relocated leader.kind rfl rfl rfl
    exact ⟨ended.copies, ended.looking, ended.suspecting⟩
  | @answered owed _ phase owes =>
    have mapped : ∀ hash ∈ owed, store.index.Mapped hash := by
      intro hash member
      rcases owes hash member with old | ⟨kind, answered⟩
      · exact durable.owed hash old
      · exact (durable.leader handle opened leader leads).2 kind hash answered
    refine durable.unled handle sound mapped rfl
      (nextSegmentId_relocated leader.kind .turn) ?_
    have turned : TasksDurable hashBlock store.submitted (store.group handle)
        (handle.relocated leader.kind .turn) := tasks.relocated leader.kind rfl rfl rfl
    exact ⟨turned.copies, turned.looking, turned.suspecting⟩

theorem Durable.transaction {later : BlockIndex} {files : Directory}
    {owed : List RawHash} (durable : Durable hashBlock store)
    (opened : store.handle = some handle)
    (sound : Sound hashBlock { store with
      index := later, directory := files, handle := some changed, owed := owed })
    (undisturbed : Undisturbed store.index later) (fewer : later.blocks ⊆ store.index.blocks)
    (owes : ∀ hash ∈ owed, later.Mapped hash)
    (keeps : ∀ segmentId stop, ¬Gone (store.group handle) segmentId →
      KeepsFile store.directory files segmentId stop)
    (names : files.names ⊆ store.directory.names) (file : files.file = store.directory.file)
    (writer : changed.writer = handle.writer)
    (leading : ∀ leader, changed.leader = some leader → ∃ before,
      handle.leader = some before ∧ leader.phase = before.phase ∧
        leader.addedAt = before.addedAt ∧ leader.Answers later)
    (batches : changed.leader.map Leader.phase = handle.leader.map Leader.phase)
    (tasks : TasksDurable hashBlock store.submitted (store.group handle) changed) :
    Durable hashBlock { store with
      index := later, directory := files, handle := some changed, owed := owed } := by
  have group := durable.sound.group handle opened
  have live : ∀ segmentId state durableEnd, store.index.Row segmentId state durableEnd →
      state ≠ .retired → ¬Gone (store.group handle) segmentId :=
    fun _ _ _ row live gone => live (gone.retired _ _ row)
  have working : GroupState.batches ⟨later, files, changed.writer, changed.leader⟩ =
      (store.group handle).batches := batches_congr batches
  exact {
    sound := sound
    files := (durable.files.keep durable.sound.index.coherent fun _ _ _ row isLive =>
      keeps _ _ (live _ _ _ row isLive)).transaction undisturbed.rows fewer
    owed := owes
    leader := by
      intro current same leader leads
      cases same
      obtain ⟨before, led, phase, addedAt, answers⟩ := leading leader leads
      refine ⟨?_, answers⟩
      rw [phase, addedAt]
      apply (durable.leader handle opened before led).1.kept
      intro batch member
      apply keeps
      intro gone
      apply gone.apart batch _ rfl
      rw [batches_of led]
      exact member
    tasks := by
      intro current same
      cases same
      refine tasks.bystander (.of_rows ?_ names file ?_ ?_) (refl _) rfl
      · intro segmentId state durableEnd row
        obtain ⟨earlier, old, _⟩ := undisturbed.rows _ _ _ row
        exact ⟨earlier, old⟩
      · change changed.writer.nextSegmentId = handle.writer.nextSegmentId
        rw [writer]
      · rw [Store.group, working]
        exact refl _ }

theorem Durable.lead (durable : Durable hashBlock store) (handle : Handle)
    {leads : Leader} {more : List Bytes}
    (sound : Sound hashBlock { store with handle := some changed, submitted := more })
    (subset : store.submitted ⊆ more) (writer : changed.writer = handle.writer)
    (leading : changed.leader = some leads) (idle : leads.phase.batches = [])
    (phase : leads.phase.Durable hashBlock more store.directory leads.addedAt)
    (answers : leads.Answers store.index)
    (tasks : TasksDurable hashBlock store.submitted (store.group handle) changed) :
    Durable hashBlock { store with handle := some changed, submitted := more } where
  sound := sound
  files := durable.files.mono subset
  owed := durable.owed
  leader := by
    intro current same leader leads'
    cases same
    rw [leading] at leads'
    cases leads'
    exact ⟨phase, answers⟩
  tasks := by
    intro current same
    cases same
    refine tasks.bystander (.of_rows ?_ ?_ ?_ ?_ ?_) subset rfl
    · exact fun _ state _ row => ⟨state, row⟩
    · exact refl _
    · rfl
    · change changed.writer.nextSegmentId = handle.writer.nextSegmentId
      rw [writer]
    · rw [batches_of leading, idle]
      exact nil_subset _

theorem durable_beginPut {blocks : List Bytes} {addedAt : Int} {more : List Bytes}
    (subset : blocks ⊆ more) (short : ∀ block ∈ blocks, block.length < 2 ^ 32) :
    (beginPut hashBlock index blocks addedAt).phase.Durable hashBlock more directory
        (beginPut hashBlock index blocks addedAt).addedAt ∧
      (beginPut hashBlock index blocks addedAt).Answers index := by
  constructor
  · rw [beginPut]
    dsimp only
    split
    · trivial
    · refine ⟨?_, by rintro _ ⟨⟩⟩
      intro frame member
      rcases mem_uniqueFrames (mem_filter.mp member).1 with none | ⟨block, listed, rfl⟩
      · cases none
      · exact ⟨subset listed, rfl, short block listed⟩
  · intro _ hash member
    obtain ⟨frame, found, rfl⟩ := mem_map.mp member
    have isSome := (mem_filter.mp found).2
    obtain ⟨location, isFound⟩ := isSome_iff_exists.mp isSome
    obtain ⟨row, mapped, _⟩ := map_eq_some_iff.mp isFound
    rcases Coherent.mem_of_lookupRow mapped with ⟨listed, same⟩
    exact ⟨row, listed, same⟩

theorem Durable.sealActive {active : SegmentWriter} {committed : Bool}
    (durable : Durable hashBlock store) (opened : store.handle = some handle)
    (unled : handle.leader = none) (isActive : handle.writer.active = some active) :
    Durable hashBlock { store with
      index :=
        if committed then store.index.setSegmentState active.segmentId .sealed else store.index
      handle := some { handle with writer := { handle.writer with active := none } } } := by
  have sound := @Sound.sealActive _ _ _ _ committed durable.sound opened unled isActive
  have row := ((durable.sound.group handle opened).active active isActive).1
  have rows := @row_of_sealed _ _
    (fun _ _ old => (durable.sound.index.coherent.row_unique old row).1) committed
  have blocks : (if committed then store.index.setSegmentState active.segmentId .sealed
      else store.index).blocks = store.index.blocks := by
    split <;> rfl
  exact {
    sound := sound
    files := durable.files.transaction rows (by rw [blocks]; exact refl _)
    owed := by
      intro hash member
      obtain ⟨row, listed, same⟩ := durable.owed hash member
      exact ⟨row, blocks ▸ listed, same⟩
    leader := by
      intro current same leader leads
      cases same
      change handle.leader = some leader at leads
      rw [unled] at leads
      cases leads
    tasks := by
      intro current same
      cases same
      refine (durable.tasks handle opened).bystander (.of_rows ?_ ?_ ?_ ?_ ?_)
        (refl _) rfl
      · intro segmentId state durableEnd later
        obtain ⟨before, old, _⟩ := rows _ _ _ later
        exact ⟨before, old⟩
      · exact refl _
      · rfl
      · rfl
      · apply batches_subset_of_unled
        exact unled }

theorem mapped_removeBlocks {hashes : List RawHash} {hash : RawHash} (mapped : index.Mapped hash)
    (kept : hash ∉ hashes) : (index.removeBlocks hashes).Mapped hash := by
  obtain ⟨row, listed, rfl⟩ := mapped
  exact ⟨row, mem_removeBlocks listed kept, rfl⟩

theorem keepsFile_sync {stop : Nat} : KeepsFile directory directory.sync segmentId stop :=
  .of_same id nofun nofun rfl

theorem Durable.openMove (durable : Durable hashBlock store)
    (opened : store.handle = some handle) (unharmed : Unharmed hashBlock store event)
    (move : OpenMove hashBlock limits segments store handle event next) :
    Durable hashBlock next := by
  have sound := durable.sound.openMove opened unharmed.noCollision move
  have index := durable.sound.index
  have group := durable.sound.group handle opened
  have tasks := durable.tasks handle opened
  have sameLeader : ∀ (later : BlockIndex), (∀ hash, store.index.Mapped hash → later.Mapped hash) →
      ∀ leader, handle.leader = some leader → ∃ before, handle.leader = some before ∧
        leader.phase = before.phase ∧ leader.addedAt = before.addedAt ∧ leader.Answers later :=
    fun later kept leader leads => ⟨leader, leads, rfl, rfl, fun kind hash member =>
      kept hash ((durable.leader handle opened leader leads).2 kind hash member)⟩
  cases move with
  | led leads move => exact durable.leaderStep opened leads unharmed move
  | @put blocks addedAt unled =>
    have begun := @durable_beginPut hashBlock store.index store.directory blocks
      addedAt (store.submitted ++ blocks) (subset_append_right _ _) unharmed.2
    rcases begun with ⟨phase, answers⟩
    exact durable.lead handle sound (subset_append_left _ _) rfl rfl
      (batches_beginPut _ _ _) phase answers
      ⟨tasks.copies, tasks.looking, tasks.suspecting⟩
  | sealActive unled isActive => exact durable.sealActive opened unled isActive
  | @relocate number addedAt compaction copies unled found holds =>
    have writer : (handle.setStage number .relocating).writer = handle.writer := by
      rw [Handle.setStage, found]
      rfl
    have moved : TasksDurable hashBlock store.submitted (store.group handle)
        (handle.setStage number .relocating) := tasks.setStage number rfl rfl rfl
    refine durable.lead handle sound (refl _) writer rfl rfl
      ⟨?_, by rintro _ ⟨⟩⟩ (by rintro ⟨⟩) ⟨moved.copies, moved.looking, moved.suspecting⟩
    intro copy member
    exact tasks.copies compaction (mem_of_getElem? found) copy (holds ▸ member)
  | @remove hashes =>
    refine durable.transaction opened sound (undisturbed_removeBlocks _ _)
      (removeBlocks_subset _ _) ?_ (fun _ _ _ => .refl _ _ _) (refl _) rfl rfl ?_ ?_
      ⟨tasks.copies, tasks.looking, tasks.suspecting⟩
    · intro hash member
      rcases mem_filter.mp member with ⟨owed, kept⟩
      exact mapped_removeBlocks (durable.owed hash owed) (of_decide_eq_true kept)
    · intro leader leads
      obtain ⟨before, led, rfl⟩ := map_eq_some_iff.mp leads
      refine ⟨before, led, rfl, rfl, fun kind hash member => ?_⟩
      rcases mem_filter.mp member with ⟨answered, kept⟩
      exact mapped_removeBlocks
        ((durable.leader handle opened before led).2 kind hash answered)
        (of_decide_eq_true kept)
    · dsimp only
      rw [Option.map_map]
      rfl
  | compact =>
    refine durable.transaction opened sound (.refl _) (refl _) durable.owed
      (fun _ _ _ => .refl _ _ _) (refl _) rfl rfl
      (sameLeader _ fun _ => id) rfl ⟨?_, ?_, ?_⟩
    · refine forall_mem_concat tasks.copies ?_
      rintro _ ⟨⟩
    · refine forall_mem_concat tasks.looking ?_
      rintro _ _ ⟨⟩
    · refine forall_mem_concat tasks.suspecting ?_
      rintro _ _ ⟨⟩
  | reclaim =>
    exact durable.transaction opened sound (.refl _) (refl _) durable.owed
      (fun _ _ _ => .refl _ _ _) (refl _) rfl rfl
      (sameLeader _ fun _ => id) rfl ⟨tasks.copies, tasks.looking, tasks.suspecting⟩
  | compacted _ found moves =>
    obtain ⟨later, changed, move, rfl⟩ := moves
    rcases tasks.compaction index group durable.files found move with ⟨same, held⟩
    have kept : ∀ hash, store.index.Mapped hash → later.Mapped hash := by
      intro hash mapped
      obtain ⟨row, listed, isHash⟩ := mapped
      exact ⟨row, same ▸ listed, isHash⟩
    exact durable.transaction opened sound move.undisturbed
      (by rw [same]; exact refl _)
      (fun hash member => kept hash (durable.owed hash member))
      (fun _ _ _ => .refl _ _ _) (refl _) rfl rfl (sameLeader _ kept) rfl held
  | @reclaimed number reclaim changed later files _ _ found move =>
    have gone := (durable.sound.tasks handle opened).reclaims _ (mem_of_getElem? found)
    have undisturbed := move.undisturbed gone
    have held : TasksDurable hashBlock store.submitted (store.group handle)
        (handle.setReclaim number changed) := ⟨tasks.copies, tasks.looking, tasks.suspecting⟩
    generalize changed.rest = rest at move
    cases move with
    | passed =>
      exact durable.transaction opened sound undisturbed (refl _) durable.owed
        (fun _ _ _ => .refl _ _ _) (refl _) rfl rfl
        (sameLeader _ fun _ => id) rfl held
    | @unlinked segmentId listed =>
      refine durable.transaction opened sound undisturbed (refl _) durable.owed
        ?_ (fun _ member => (mem_filter.mp member).1) rfl rfl
        (sameLeader _ fun _ => id) rfl held
      intro other stop notGone
      apply keepsFile_removePath
      intro same
      exact notGone (same ▸ gone segmentId listed)
    | @forgotten segmentId rest listed fewer =>
      -- Nothing is mapped into a retired segment.
      have same : (store.index.forgetSegment segmentId).blocks = store.index.blocks := by
        apply filter_eq_self.mpr
        intro row mapped
        apply decide_eq_true
        intro inside
        obtain ⟨state, durableEnd, segment, live, _⟩ := index.coherent.row_of_mapped mapped
        exact live ((gone segmentId listed).retired _ _ (inside ▸ segment))
      have kept : ∀ hash, store.index.Mapped hash →
          (store.index.forgetSegment segmentId).Mapped hash := by
        intro hash mapped
        obtain ⟨row, isMapped, isHash⟩ := mapped
        exact ⟨row, same ▸ isMapped, isHash⟩
      exact durable.transaction opened sound undisturbed
        (by rw [same]; exact refl _)
        (fun hash member => kept hash (durable.owed hash member))
        (fun _ _ _ => .refl _ _ _) (refl _) rfl rfl (sameLeader _ kept) rfl held
    | synced =>
      exact durable.transaction opened sound undisturbed (refl _) durable.owed
        (fun _ _ _ => keepsFile_sync) (refl _) rfl rfl
        (sameLeader _ fun _ => id) rfl held

theorem Durable.step (durable : Durable hashBlock store) (unharmed : Unharmed hashBlock store event)
    (stepped : Segments.step hashBlock limits segments store event = some next) :
    Durable hashBlock next := by
  have sound := durable.sound.step unharmed.noCollision stepped
  have coherent := durable.sound.index.coherent
  cases StoreMove.of_step stepped with
  | taken opened move => exact durable.openMove opened unharmed move
  | crashed survives =>
    exact ⟨sound, durable.files.crashed coherent survives, durable.owed, nofun, nofun⟩
  | @recovered removable stageRemovable closed =>
    have reconciled := Reconciled.recover durable.files coherent removable stageRemovable
    refine ⟨sound, durable.files.recovered coherent removable stageRemovable, ?_, ?_, ?_⟩
    · intro hash member
      obtain ⟨row, listed, same⟩ := durable.owed hash member
      exact ⟨row, reconciled.blocks ▸ listed, same⟩
    · intro handle same
      cases same
      exact nofun
    · intro handle same
      cases same
      exact ⟨nofun, nofun, nofun⟩

/-! ## Runs -/

/-- What the store promises: every mapping points into a file that is there, at a whole record
with the hash and with the bytes of a block that was put, and every block whose put returned and
that was not deleted since is mapped. -/
structure CrashSafe (hashBlock : Bytes → RawHash) (store : Store) : Prop where
  readable : ∀ row ∈ store.index.blocks, row.segmentId ∈ store.directory.names ∧
    ∃ block ∈ store.submitted, hashBlock block = row.hash ∧
      readRecordPayload (store.directory.file row.segmentId).bytes row.location row.hash = .ok block
  owed : ∀ hash ∈ store.owed, ∃ row ∈ store.index.blocks, row.hash = hash

theorem Durable.crashSafe (durable : Durable hashBlock store) : CrashSafe hashBlock store where
  readable := by
    intro row mapped
    obtain ⟨state, durableEnd, segment, live, _⟩ :=
      durable.sound.index.coherent.row_of_mapped mapped
    refine ⟨(durable.files.files _ _ _ segment live).named, ?_⟩
    obtain ⟨block, put, hashed, _, read⟩ :=
      @Filed.reads _ _ _ _ row.location (durable.files.records row mapped)
    exact ⟨block, put, hashed, read⟩
  owed := durable.owed

/-- In every run whose steps meet the condition, with crashes at any point and recoveries, the
store keeps its promise in every state. -/
theorem block_store_crash_safe (hashBlock : Bytes → RawHash) (limits : GroupCommitLimits)
    (segments : Nat) {events : List Event} {last : Store}
    (unharmed : Along (step hashBlock limits segments) (Unharmed hashBlock) .fresh events)
    (ran : run (step hashBlock limits segments) .fresh events = some last) :
    CrashSafe hashBlock last :=
  (invariant_run (fun _ _ _ durable unharmed stepped => durable.step unharmed stepped)
    durable_fresh unharmed ran).crashSafe

/-! ## Runs with a crash -/

/-- A block is put, in the given write calls, and the process crashes and opens the store again. -/
def crashedPut (calls : List Nat) (found : Bytes) : List Event :=
  [.recover (fun _ => true) (fun _ => true), .put [[1]] 0, .layOut (.created true), .advance,
    .append [calls], .advance, .sync true, .advance, .record true, .finish, .crash [(1, found)] [],
    .recover (fun _ => true) (fun _ => true)]

def oneByte : RecordFrame := { hash := hashOfByte [1], payload := [1] }

def wholeFile : Bytes := encodeSegmentHeader 1 ++ oneByte.bytes

/-- The file after two short writes of ten bytes: ten bytes of the record are there twice. -/
def cutFile : Bytes := encodeSegmentHeader 1 ++ oneByte.bytes.take 20 ++ oneByte.bytes.drop 10

def storeAfterCrash : Store :=
  (run (step hashOfByte defaultLimits maxWriteSegments) .fresh (crashedPut [53] wholeFile)).get
    (by decide +kernel)

def storeAfterCuts : Store :=
  (run (step hashOfByte defaultLimits maxWriteSegments) .fresh
    (crashedPut [10, 10, 43] cutFile)).get (by decide +kernel)

def rowOfOne : BlockRow :=
  { hash := hashOfByte [1], segmentId := 1, recordOffset := 16, payloadLen := 1, recordLen := 53
    addedAt := 0 }

/-- The block is read back after the crash. -/
theorem block_store_crash_safe_one : CrashSafe hashOfByte storeAfterCrash :=
  block_store_crash_safe hashOfByte defaultLimits maxWriteSegments
    (show Along _ _ _ (crashedPut [53] wholeFile) by decide +kernel) (Option.some_get _).symm

/-- Two short writes inside the header of a record: the put returns, and the block is mapped to a
record that cannot be read. -/
theorem short_writes_break_record :
    ¬∀ (hashBlock : Bytes → RawHash) (limits : GroupCommitLimits) (segments : Nat)
        (events : List Event) (last : Store),
      Along (step hashBlock limits segments) (NoCollision hashBlock) .fresh events →
      run (step hashBlock limits segments) .fresh events = some last →
      CrashSafe hashBlock last := by
  intro always
  have safe := always hashOfByte defaultLimits maxWriteSegments (crashedPut [10, 10, 43] cutFile)
    storeAfterCuts (by decide +kernel) (Option.some_get _).symm
  have mapped : rowOfOne ∈ storeAfterCuts.index.blocks := by decide +kernel
  obtain ⟨_, block, _, _, read⟩ := safe.readable rowOfOne mapped
  have unread : (readRecordPayload (storeAfterCuts.directory.file rowOfOne.segmentId).bytes
      rowOfOne.location rowOfOne.hash).toOption = none := by decide +kernel
  rw [read] at unread
  cases unread

end Yadorilink.Segments
