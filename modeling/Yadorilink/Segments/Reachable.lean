import Yadorilink.Segments.GroupSteps
import Yadorilink.Segments.Moves
import Yadorilink.Segments.Recovery

/-! The index and the writer agree in every state a store reaches, whatever calls fail and
wherever it crashes, as long as no two blocks put hash alike. -/

namespace Yadorilink.Segments

open Machine FileBytes List List.Subset GroupState

variable {hashBlock : Bytes → RawHash} {limits : GroupCommitLimits} {segments : Nat}
  {store next : Store} {handle : Handle} {leader : Leader} {event : Event}
  {submitted more : List Bytes} {group after : GroupState} {index : BlockIndex}

/-! ## Groups -/

theorem Kept.move (free : CollisionFree hashBlock submitted)
    (index : IndexSound hashBlock submitted group.index)
    (sound : GroupSound hashBlock submitted group) (leads : group.leader = some leader)
    (move : GroupMove limits segments group leader event after) :
    Kept hashBlock submitted group after := by
  have stays : ∀ phase : Phase, leader.phase.batches = phase.batches →
      phase.Sound hashBlock submitted group.index group.writer.nextSegmentId →
      Kept hashBlock submitted group
        { group with leader := some { leader with phase := phase } } := by
    intro phase same holds
    have working : group.batches = phase.batches := (batches_of leads).trans same
    exact Kept.goOn index sound rfl (fun _ => id) (Nat.le_refl _) rfl (working ▸ sound.opened)
      (fun batch member => ⟨batch, working ▸ member, rfl⟩) holds
  have here := sound.phase leader leads
  cases move with
  | layOut phase made => exact Kept.layOut index sound leads phase made
  | @laidOut batches sealed phase =>
    rw [phase] at here
    exact stays (.append [] batches sealed) (by rw [phase]; rfl) ⟨here.1, nofun⟩
  | @appended done sealed phase =>
    rw [phase, Phase.Sound, append_nil] at here
    exact stays (.sync [] done sealed) (by rw [phase]; exact append_nil done) here
  | @synced done sealed phase =>
    rw [phase, Phase.Sound, append_nil] at here
    exact stays (.record done sealed) (by rw [phase]; exact append_nil done) here
  | append phase made => exact Kept.append index sound leads phase made
  | sync phase => exact Kept.sync index sound leads phase
  | record phase => exact Kept.record free index sound leads phase
  | undo phase => exact Kept.rollBackOne index sound leads phase

/-! ## Tasks -/

section

variable (tasks : TasksSound hashBlock submitted group handle)

include tasks

theorem TasksSound.regroup
    (gone : ∀ segmentId, Gone group segmentId → Gone after segmentId) :
    TasksSound hashBlock submitted after handle where
  reclaims := fun reclaim listed segmentId member =>
    gone segmentId (tasks.reclaims reclaim listed segmentId member)
  copies := tasks.copies
  looking := tasks.looking

theorem TasksSound.rehandle {changed : Handle}
    (reclaims : changed.reclaims = handle.reclaims)
    (compactions : changed.compactions = handle.compactions) :
    TasksSound hashBlock submitted group changed where
  reclaims := reclaims ▸ tasks.reclaims
  copies := compactions ▸ tasks.copies
  looking := compactions ▸ tasks.looking

theorem TasksSound.setCompaction
    {changed : Compaction} (number : Nat)
    (copies : ∀ copy ∈ changed.stage.copies,
      HasLength hashBlock submitted copy.hash copy.payload.length)
    (looking : ∀ hash location, changed.stage.looking = some (hash, location) →
      HasLength hashBlock submitted hash location.length) :
    TasksSound hashBlock submitted group (handle.setCompaction number changed) where
  reclaims := tasks.reclaims
  copies := by
    intro compaction member
    rcases mem_or_eq_of_mem_set member with old | rfl
    · exact tasks.copies compaction old
    · exact copies
  looking := by
    intro compaction member
    rcases mem_or_eq_of_mem_set member with old | rfl
    · exact tasks.looking compaction old
    · exact looking

theorem TasksSound.setStage
    {stage : CompactionStage} (number : Nat) (holds : stage.copies = [])
    (reads : stage.looking = none) :
    TasksSound hashBlock submitted group (handle.setStage number stage) := by
  rw [Handle.setStage]
  split
  · apply tasks.setCompaction number
    · intro copy member
      rw [holds] at member
      cases member
    · intro hash location looks
      rw [reads] at looks
      cases looks
  · exact tasks

theorem TasksSound.relocated
    {stage : CompactionStage} (kind : GroupKind) (holds : stage.copies = [])
    (reads : stage.looking = none) :
    TasksSound hashBlock submitted group (handle.relocated kind stage) := by
  cases kind with
  | ingest => exact tasks
  | relocation number sources => exact tasks.setStage number holds reads

theorem TasksSound.setReclaim
    {changed : Reclaim} (number : Nat)
    (gone : ∀ segmentId ∈ changed.rest, Gone group segmentId) :
    TasksSound hashBlock submitted group (handle.setReclaim number changed) where
  reclaims := by
    intro reclaim member
    rcases mem_or_eq_of_mem_set member with old | rfl
    · exact tasks.reclaims reclaim old
    · exact gone
  copies := tasks.copies
  looking := tasks.looking

end

/-! ## Transactions of their own -/

theorem batches_congr (same : group.leader.map Leader.phase = after.leader.map Leader.phase) :
    group.batches = after.batches := by
  rw [batches, batches]
  cases one : group.leader with
  | none =>
    cases two : after.leader with
    | none => rfl
    | some other =>
      rw [one, two] at same
      cases same
  | some leader =>
    cases two : after.leader with
    | none =>
      rw [one, two] at same
      cases same
    | some other =>
      rw [one, two] at same
      exact congrArg Phase.batches (Option.some.inj same)

theorem Sound.transaction {directory : Directory} {changed : Handle} {owed : List RawHash}
    (sound : Sound hashBlock store) (opened : store.handle = some handle)
    (coherent : Coherent index) (undisturbed : Undisturbed store.index index)
    (fewer : index.blocks ⊆ store.index.blocks) (writer : changed.writer = handle.writer)
    (phase : changed.leader.map Leader.phase = handle.leader.map Leader.phase)
    (tasks : TasksSound hashBlock store.submitted (store.group handle) changed) :
    Sound hashBlock { store with
      index := index, directory := directory, handle := some changed, owed := owed } := by
  have group := (sound.group handle opened).undisturbed undisturbed
  have working : batches ⟨index, directory, changed.writer, changed.leader⟩ =
      (store.group handle).batches := batches_congr phase
  exact {
    free := sound.free
    index := sound.index.transaction coherent undisturbed fewer
    group := by
      intro current same
      cases same
      rw [Store.group]
      refine ⟨?_, ?_, ?_, ?_⟩
      · rw [writer]
        exact group.rows
      · intro active isActive
        change changed.writer.active = some active at isActive
        rw [writer] at isActive
        rw [working]
        exact group.active active isActive
      · rw [working, writer]
        exact group.opened
      · intro leader leads
        have same := phase
        change changed.leader = some leader at leads
        rw [leads] at same
        obtain ⟨old, led, isPhase⟩ := Option.map_eq_some_iff.mp same.symm
        rw [← isPhase, writer]
        exact group.phase old led
    tasks := by
      intro current same
      cases same
      apply tasks.regroup
      intro segmentId gone
      have kept := gone.undisturbed undisturbed
      rw [Store.group]
      refine ⟨?_, kept.retired, ?_⟩
      · rw [writer]
        exact kept.below
      · rw [working]
        exact kept.apart }

theorem removeBlock_subset (index : BlockIndex) (hash : RawHash) :
    (index.removeBlock hash).blocks ⊆ index.blocks := by
  rw [BlockIndex.removeBlock]
  split
  · exact refl _
  · exact fun _ member => (mem_filter.mp member).1

theorem removeBlocks_subset (index : BlockIndex) (hashes : List RawHash) :
    (index.removeBlocks hashes).blocks ⊆ index.blocks := by
  rw [BlockIndex.removeBlocks]
  induction hashes generalizing index with
  | nil => exact List.Subset.refl _
  | cons hash hashes induction =>
    exact List.Subset.trans (induction (index.removeBlock hash)) (removeBlock_subset index hash)

theorem Undisturbed.refl (index : BlockIndex) : Undisturbed index index :=
  .of_rows fun _ _ _ => Iff.rfl

theorem length_of_readRecordPayload {file : Bytes} {location : BlockLocation} {hash : RawHash}
    {payload : Bytes} (read : readRecordPayload file location hash = .ok payload) :
    payload.length = location.length := by
  simp only [readRecordPayload, bind, Except.bind] at read
  split at read
  · cases read
  · split at read
    · cases read
    · split at read
      · cases read
      · split at read
        · cases read
        · rename_i header _ _ same
          split at read
          · cases read
          · rename_i found isRead
            split at read
            · cases read
            · split at read
              · cases read
                rw [readExactAt] at isRead
                split at isRead
                · rename_i whole
                  cases isRead
                  rw [whole]
                  exact Decidable.not_not.mp same
                · cases isRead
              · cases read

theorem HasLength.of_lookup (sound : IndexSound hashBlock submitted index) {hash : RawHash}
    {location : BlockLocation} (found : index.lookup hash = some location) :
    HasLength hashBlock submitted hash location.length := by
  obtain ⟨row, mapped, rfl⟩ := Option.map_eq_some_iff.mp found
  rcases Coherent.mem_of_lookupRow mapped with ⟨member, same⟩
  exact same ▸ sound.sized row member

theorem Sound.compaction {compaction : Compaction} {number : Nat}
    (sound : Sound hashBlock store) (opened : store.handle = some handle)
    (found : handle.compactions[number]? = some compaction)
    (moves : CompactionMoves hashBlock store handle number compaction next) :
    Sound hashBlock next := by
  obtain ⟨index, changed, move, rfl⟩ := moves
  have listed := mem_of_getElem? found
  have tasks := sound.tasks handle opened
  have quiet : CompactionMove hashBlock store compaction index changed.stage →
      TasksSound hashBlock store.submitted (store.group handle)
        (handle.setCompaction number changed) := by
    intro move
    apply tasks.setCompaction number
    · intro copy member
      generalize changed.stage = stage at move member
      cases move with
      | quiet fewer => exact tasks.copies compaction listed copy (fewer member)
      | resolved stage =>
        apply tasks.copies compaction listed
        rw [stage]
        exact member
      | copied before read verified more =>
        rw [more] at member
        rcases mem_append.mp member with old | new
        · apply tasks.copies compaction listed
          rw [before]
          exact old
        · rw [mem_singleton.mp new, length_of_readRecordPayload read]
          apply tasks.looking compaction listed
          rw [before]
          rfl
      | suspected before =>
        apply tasks.copies compaction listed
        rw [before]
        exact member
      | corrupt before =>
        apply tasks.copies compaction listed
        rw [before]
        exact member
      | dropped before =>
        apply tasks.copies compaction listed
        rw [before]
        exact member
      | retired => cases member
    · intro hash location looks
      generalize changed.stage = stage at move looks
      cases move with
      | quiet _ reading =>
        rw [reading] at looks
        cases looks
      | resolved stage found =>
        cases looks
        exact HasLength.of_lookup sound.index found
      | copied _ _ _ _ reading =>
        rw [reading] at looks
        cases looks
      | suspected => cases looks
      | @corrupt _ rest => cases rest <;> cases looks
      | @dropped _ rest => cases rest <;> cases looks
      | retired => cases looks
  have coherent := sound.index.coherent
  have result := quiet move
  generalize changed.stage = stage at move
  cases move with
  | quiet | resolved | copied | suspected =>
    exact sound.transaction opened coherent (.refl _) (refl _) rfl rfl result
  | corrupt | dropped =>
    exact sound.transaction opened (coherent.removeBlocks _) (undisturbed_removeBlocks _ _)
      (removeBlocks_subset _ _) rfl rfl result
  | retired =>
    exact sound.transaction opened (coherent.retireEmptySegment _)
      (undisturbed_retireEmptySegment _ _) (refl _) rfl rfl result

theorem Sound.reclaimStep {reclaim changed : Reclaim} {number : Nat} {directory : Directory}
    (sound : Sound hashBlock store) (opened : store.handle = some handle)
    (found : handle.reclaims[number]? = some reclaim)
    (move : ReclaimMove store reclaim index directory changed.rest) :
    Sound hashBlock { store with
      index := index, directory := directory
      handle := some (handle.setReclaim number changed) } := by
  have tasks := sound.tasks handle opened
  have gone := tasks.reclaims reclaim (mem_of_getElem? found)
  have coherent := sound.index.coherent
  have result : changed.rest ⊆ reclaim.rest →
      TasksSound hashBlock store.submitted (store.group handle)
        (handle.setReclaim number changed) :=
    fun fewer => tasks.setReclaim number fun segmentId member => gone segmentId (fewer member)
  generalize changed.rest = rest at move result
  cases move with
  | passed fewer =>
    exact sound.transaction opened coherent (.refl _) (refl _) rfl rfl
      (result fewer)
  | unlinked | synced =>
    exact sound.transaction opened coherent (.refl _) (refl _) rfl rfl
      (result (refl _))
  | @forgotten segmentId _ listed fewer =>
    exact sound.transaction opened (coherent.forgetSegment segmentId)
      (undisturbed_forgetSegment (gone segmentId listed))
      (fun _ member => (mem_filter.mp member).1) rfl rfl (result fewer)

/-! ## Puts -/

theorem IndexSound.mono (sound : IndexSound hashBlock submitted index) (subset : submitted ⊆ more) :
    IndexSound hashBlock more index where
  coherent := sound.coherent
  sized := fun row member => (sound.sized row member).mono subset
  framed := sound.framed
  headed := sound.headed

theorem mem_uniqueFrames {blocks : List Bytes} {unique : List RecordFrame} {frame : RecordFrame}
    (member : frame ∈ uniqueFrames hashBlock blocks unique) :
    frame ∈ unique ∨ ∃ block ∈ blocks, frame = ⟨hashBlock block, block⟩ := by
  induction blocks generalizing unique with
  | nil => exact .inl member
  | cons block blocks induction =>
    rw [uniqueFrames] at member
    split at member
    · rcases induction member with old | ⟨later, listed, same⟩
      · exact .inl old
      · exact .inr ⟨later, .tail block listed, same⟩
    · rcases induction member with old | ⟨later, listed, same⟩
      · rcases mem_append.mp old with sooner | new
        · exact .inl sooner
        · exact .inr ⟨block, .head _, mem_singleton.mp new⟩
      · exact .inr ⟨later, .tail block listed, same⟩

theorem batches_beginPut (index : BlockIndex) (blocks : List Bytes) (addedAt : Int) :
    (beginPut hashBlock index blocks addedAt).phase.batches = [] := by
  rw [beginPut]
  dsimp only
  split <;> rfl

theorem forward_nil (index : BlockIndex) (number : Nat) :
    Forward hashBlock submitted index number [] [] where
  filled := ⟨nofun, nofun, nofun⟩
  rolled := ⟨nofun, fun _ => rfl, nofun⟩

theorem sound_beginPut (index : BlockIndex) (blocks : List Bytes) (addedAt : Int) (number : Nat)
    (subset : blocks ⊆ submitted) :
    (beginPut hashBlock index blocks addedAt).phase.Sound hashBlock submitted index number := by
  rw [beginPut]
  dsimp only
  split
  · trivial
  · refine ⟨forward_nil index number, ?_⟩
    intro frame member
    rcases mem_uniqueFrames (mem_filter.mp member).1 with none | ⟨block, listed, rfl⟩
    · cases none
    · exact ⟨block, subset listed, rfl, rfl⟩

theorem Sound.lead {changed : Handle} {leads : Leader} (sound : Sound hashBlock store)
    (free : CollisionFree hashBlock more) (subset : store.submitted ⊆ more)
    (opened : store.handle = some handle) (writer : changed.writer = handle.writer)
    (led : handle.leader = none) (leading : changed.leader = some leads)
    (idle : leads.phase.batches = [])
    (phase : leads.phase.Sound hashBlock more store.index handle.writer.nextSegmentId)
    (tasks : TasksSound hashBlock store.submitted (store.group handle) changed) :
    Sound hashBlock { store with handle := some changed, submitted := more } := by
  have group := sound.group handle opened
  have working : ({ store with handle := some changed, submitted := more }.group changed).batches =
      [] :=
    (batches_of leading).trans idle
  have before : (store.group handle).batches = [] := batches_of_unled led
  exact {
    free := free
    index := sound.index.mono subset
    group := by
      intro current same
      cases same
      refine ⟨?_, ?_, ?_, ?_⟩
      · change ∀ segmentId state durableEnd, _ → segmentId < changed.writer.nextSegmentId
        rw [writer]
        exact group.rows
      · intro active isActive
        change changed.writer.active = some active at isActive
        rw [writer] at isActive
        exact ⟨(group.active active isActive).1, working⟩
      · rw [working]
        exact opened_nil _ _
      · intro leader same
        change changed.leader = some leader at same
        rw [leading] at same
        cases same
        change Phase.Sound hashBlock more store.index changed.writer.nextSegmentId leads.phase
        rw [writer]
        exact phase
    tasks := by
      intro current same
      cases same
      refine ⟨?_, ?_, ?_⟩
      · intro reclaim listed segmentId member
        have gone := tasks.reclaims reclaim listed segmentId member
        refine ⟨?_, gone.retired, ?_⟩
        · change segmentId < changed.writer.nextSegmentId
          rw [writer]
          exact gone.below
        · rw [working]
          rintro _ ⟨⟩
      · exact fun compaction listed copy member =>
          (tasks.copies compaction listed copy member).mono subset
      · exact fun compaction listed hash location looks =>
          (tasks.looking compaction listed hash location looks).mono subset }

theorem Sound.put {blocks : List Bytes} {addedAt : Int} (sound : Sound hashBlock store)
    (free : CollisionFree hashBlock (store.submitted ++ blocks))
    (opened : store.handle = some handle) (led : handle.leader = none) :
    Sound hashBlock { store with
      handle := some { handle with
        leader := some (beginPut hashBlock store.index blocks addedAt) }
      submitted := store.submitted ++ blocks } :=
  sound.lead free (subset_append_left _ _) opened rfl led rfl (batches_beginPut _ _ _)
    (sound_beginPut _ _ _ _ (subset_append_right _ _))
    ((sound.tasks handle opened).rehandle rfl rfl)

theorem Sound.relocate {compaction : Compaction} {number : Nat} {addedAt : Int}
    {copies : List RecordFrame} {kind : GroupKind} (sound : Sound hashBlock store)
    (opened : store.handle = some handle) (led : handle.leader = none)
    (found : handle.compactions[number]? = some compaction)
    (holds : compaction.stage.copies = copies) :
    Sound hashBlock { store with handle := some { handle.setStage number .relocating with
      leader := some
        { kind := kind, addedAt := addedAt, answered := []
          phase := .layOut copies [] [] } } } := by
  have tasks := sound.tasks handle opened
  have sized : ∀ copy ∈ copies,
      HasLength hashBlock store.submitted copy.hash (copy.payload.length % 2 ^ 32) := by
    intro copy member
    have length := tasks.copies compaction (mem_of_getElem? found) copy (holds ▸ member)
    rw [Nat.mod_eq_of_lt length.lt]
    exact length
  have writer : (handle.setStage number .relocating).writer = handle.writer := by
    rw [Handle.setStage, found]
    rfl
  exact sound.lead sound.free (refl _) opened writer led rfl rfl
    ⟨forward_nil _ _, sized⟩ ((tasks.setStage number rfl rfl).rehandle rfl rfl)

theorem row_of_sealed {index : BlockIndex} {number : Nat}
    (active : ∀ state durableEnd, index.Row number state durableEnd → state = .active)
    (committed : Bool) (segmentId : Nat) (state : SegmentState) (durableEnd : Nat)
    (later : (if committed then index.setSegmentState number .sealed else index).Row segmentId
      state durableEnd) :
    ∃ before, index.Row segmentId before durableEnd ∧ (before = .retired → state = .retired) := by
  split at later
  · obtain ⟨before, old, rfl⟩ := row_setSegmentState.mp later
    refine ⟨before, old, fun retired => ?_⟩
    subst retired
    split
    · rename_i same
      subst same
      cases active _ _ old
    · rfl
  · exact ⟨state, later, id⟩

theorem Sound.sealActive {active : SegmentWriter} {committed : Bool}
    (sound : Sound hashBlock store) (opened : store.handle = some handle)
    (led : handle.leader = none) (isActive : handle.writer.active = some active) :
    Sound hashBlock { store with
      index :=
        if committed then store.index.setSegmentState active.segmentId .sealed else store.index
      handle := some { handle with writer := { handle.writer with active := none } } } := by
  have group := sound.group handle opened
  have tasks := sound.tasks handle opened
  have row := (group.active active isActive).1
  have working : ∀ index, batches
      { index := index, directory := store.directory
        writer := { handle.writer with active := none }, leader := handle.leader } = [] := by
    intro index
    rw [batches]
    dsimp only
    rw [led]
  have rows := @row_of_sealed _ _ (fun _ _ old => (sound.index.coherent.row_unique old row).1)
    committed
  exact {
    free := sound.free
    index := {
      coherent := by
        split
        · exact sound.index.coherent.setSegmentState active.segmentId
        · exact sound.index.coherent
      sized := by
        intro row member
        apply sound.index.sized row
        split at member <;> exact member
      framed := by
        intro row member
        apply sound.index.framed row
        split at member <;> exact member
      headed := by
        intro segmentId state durableEnd later
        obtain ⟨before, old, _⟩ := rows _ _ _ later
        exact sound.index.headed _ _ _ old }
    group := by
      intro current same
      cases same
      refine ⟨?_, (by rintro _ ⟨⟩), ?_, ?_⟩
      · intro segmentId state durableEnd later
        obtain ⟨before, old, _⟩ := rows _ _ _ later
        exact group.rows _ _ _ old
      · rw [Store.group, working]
        exact opened_nil _ _
      · intro leader same
        change handle.leader = some leader at same
        rw [led] at same
        cases same
    tasks := by
      intro current same
      cases same
      refine @TasksSound.rehandle _ handle _ _ (tasks.regroup ?_) _ rfl rfl
      intro segmentId gone
      refine ⟨gone.below, ?_, ?_⟩
      · intro state durableEnd later
        obtain ⟨before, old, stays⟩ := rows _ _ _ later
        exact stays (gone.retired before durableEnd old)
      · rw [Store.group, working]
        rintro _ ⟨⟩ }

/-! ## Steps -/

theorem Sound.withGroup {changed : Handle} (sound : Sound hashBlock store)
    (kept : Kept hashBlock store.submitted (store.group handle) group)
    (tasks : TasksSound hashBlock store.submitted (store.group handle) changed) :
    Sound hashBlock (store.withGroup changed group) where
  free := sound.free
  index := kept.index
  group := by
    intro current same
    cases same
    exact kept.group
  tasks := by
    intro current same
    cases same
    exact (tasks.regroup kept.gone).rehandle rfl rfl

theorem Sound.leaderStep (sound : Sound hashBlock store) (opened : store.handle = some handle)
    (leads : handle.leader = some leader)
    (move : LeaderMove limits segments store handle leader event next) :
    Sound hashBlock next := by
  have group := sound.group handle opened
  have tasks := sound.tasks handle opened
  cases move with
  | moved move =>
    exact sound.withGroup (Kept.move sound.free sound.index group leads move) tasks
  | broken move =>
    exact sound.withGroup (Kept.move sound.free sound.index group leads move)
      (tasks.relocated leader.kind rfl rfl)
  | @undone survivor _ phase =>
    have here := group.phase leader leads
    rw [phase] at here
    have kept : Kept hashBlock store.submitted (store.group handle)
        { store.group handle with
          leader := none, writer := { handle.writer with active := survivor } } :=
      Kept.leave sound.index group rfl (fun writer same => (here writer same).1)
        (Nat.le_refl _) rfl
    exact sound.withGroup kept (tasks.relocated leader.kind rfl rfl)
  | @answered owed _ phase _ =>
    have kept : Kept hashBlock store.submitted (store.group handle)
        { store.group handle with leader := none } :=
      Kept.leave sound.index group rfl (fun writer same => (group.active writer same).1)
        (Nat.le_refl _) rfl
    have writer : (handle.relocated leader.kind .turn).writer = handle.writer := by
      cases leader.kind with
      | ingest => rfl
      | relocation number sources =>
        rw [Handle.relocated, Handle.setStage]
        split <;> rfl
    have turned : TasksSound hashBlock store.submitted (store.group handle)
        (handle.relocated leader.kind .turn) := tasks.relocated leader.kind rfl rfl
    have result := sound.withGroup kept turned
    refine ⟨result.free, result.index, ?_, ?_⟩
    · intro current same
      cases same
      have last := result.group _ rfl
      change GroupSound _ _ { (store.group handle) with
        writer := (handle.relocated leader.kind .turn).writer, leader := none }
      rw [writer]
      exact last
    · intro current same
      cases same
      have last := result.tasks _ rfl
      change TasksSound _ _ { (store.group handle) with
        writer := (handle.relocated leader.kind .turn).writer, leader := none } _
      rw [writer]
      exact last.rehandle rfl rfl

theorem Gone.of_retired (sound : GroupSound hashBlock submitted group)
    (coherent : Coherent group.index) {row : SegmentRow} (listed : row ∈ group.index.segments)
    (retired : row.state = .retired) : Gone group row.segmentId := by
  have here : group.index.Row row.segmentId .retired row.durableEnd :=
    ⟨row, listed, rfl, retired, rfl⟩
  refine ⟨sound.rows _ _ _ here, ?_, ?_⟩
  · intro state durableEnd other
    exact (coherent.row_unique other here).1
  · intro batch member same
    obtain ⟨base, opens, _⟩ := sound.opened.bases batch member
    rw [OpenBatch.From, same] at opens
    split at opens
    · exact opens.2 _ _ here
    · cases (coherent.row_unique opens here).1

theorem Sound.openMove (sound : Sound hashBlock store) (opened : store.handle = some handle)
    (free : NoCollision hashBlock store event)
    (move : OpenMove hashBlock limits segments store handle event next) :
    Sound hashBlock next := by
  have tasks := sound.tasks handle opened
  have coherent := sound.index.coherent
  cases move with
  | led leads move => exact sound.leaderStep opened leads move
  | put unled => exact sound.put free opened unled
  | sealActive unled isActive => exact sound.sealActive opened unled isActive
  | relocate unled found holds => exact sound.relocate opened unled found holds
  | @remove hashes =>
    refine sound.transaction opened (coherent.removeBlocks hashes)
      (undisturbed_removeBlocks _ hashes) (removeBlocks_subset _ hashes) rfl ?_
      (tasks.rehandle rfl rfl)
    rw [Option.map_map]
    rfl
  | compact =>
    refine sound.transaction opened coherent (.refl _) (refl _) rfl rfl ?_
    refine ⟨tasks.reclaims, ?_, ?_⟩
    · exact forall_mem_concat tasks.copies nofun
    · exact forall_mem_concat tasks.looking nofun
  | reclaim =>
    refine sound.transaction opened coherent (.refl _) (refl _) rfl rfl ?_
    refine ⟨?_, tasks.copies, tasks.looking⟩
    refine forall_mem_concat tasks.reclaims ?_
    intro segmentId listed
    obtain ⟨row, chosen, rfl⟩ := mem_map.mp listed
    rcases mem_filter.mp chosen with ⟨inIndex, retired⟩
    exact Gone.of_retired (sound.group handle opened) coherent inIndex
      (of_decide_eq_true retired)
  | compacted _ found moves => exact sound.compaction opened found moves
  | reclaimed _ found move => exact sound.reclaimStep opened found move

theorem Sound.recovered {removable stageRemovable : Nat → Bool} (sound : Sound hashBlock store) :
    Sound hashBlock { store with
      index := (recover removable stageRemovable store.index store.directory).1.index
      directory := (recover removable stageRemovable store.index store.directory).1.directory
      handle := some
        { writer :=
            { active := none
              nextSegmentId := (recover removable stageRemovable store.index store.directory).2 }
          leader := none, compactions := [], reclaims := [] } } := by
  have recovers := sound.index.recover removable stageRemovable store.directory
  refine ⟨sound.free, recovers.sound, ?_, ?_⟩
  · intro handle same
    cases same
    refine ⟨?_, nofun, opened_nil _ _, nofun⟩
    intro segmentId state durableEnd row
    obtain ⟨earlier, stop, old, listed, rfl, _⟩ := recovers.rows _ _ _ row
    exact lt_recover_next (mem_append_right _ (mem_map_of_mem listed))
  · intro handle same
    cases same
    exact ⟨nofun, nofun, nofun⟩

theorem Sound.step (sound : Sound hashBlock store) (free : NoCollision hashBlock store event)
    (stepped : Segments.step hashBlock limits segments store event = some next) :
    Sound hashBlock next := by
  cases StoreMove.of_step stepped with
  | taken opened move => exact sound.openMove opened free move
  | crashed => exact ⟨sound.free, sound.index, nofun, nofun⟩
  | recovered => exact sound.recovered

theorem Sound.run {last : Store} {events : List Event} (sound : Sound hashBlock store)
    (free : Along (Segments.step hashBlock limits segments) (NoCollision hashBlock) store events)
    (ran : Machine.run (Segments.step hashBlock limits segments) store events = some last) :
    Sound hashBlock last :=
  invariant_run (fun _ _ _ sound free stepped => sound.step free stepped) sound free ran

end Yadorilink.Segments
