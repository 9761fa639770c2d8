import Yadorilink.Segments.BlockStore
import Yadorilink.Segments.GroupPlans

/-! What holds between the index and the writer whatever calls fail: the open segment and the
segments a group works on are where the index says, and segment numbers are not used twice. -/

namespace Yadorilink.Segments

open Machine

variable (hashBlock : Bytes → RawHash)

/-! ## Lengths -/

/-- A block with this hash was put, and this is its length as it is written down. -/
def HasLength (submitted : List Bytes) (hash : RawHash) (length : Nat) : Prop :=
  ∃ block ∈ submitted, hashBlock block = hash ∧ length = block.length % 2 ^ 32

def CollisionFree (submitted : List Bytes) : Prop :=
  ∀ first ∈ submitted, ∀ second ∈ submitted, hashBlock first = hashBlock second → first = second

instance CollisionFree.decidable (submitted : List Bytes) :
    Decidable (CollisionFree hashBlock submitted) :=
  inferInstanceAs (Decidable (∀ _ ∈ _, ∀ _ ∈ _, _ → _))

/-- The condition on a run that no two blocks put in it hash alike. -/
def NoCollision (store : Store) : Event → Prop
  | .put blocks _ => CollisionFree hashBlock (store.submitted ++ blocks)
  | _ => True

instance NoCollision.decidable (store : Store) (event : Event) :
    Decidable (NoCollision hashBlock store event) :=
  match event with
  | .put blocks _ => inferInstanceAs (Decidable (CollisionFree hashBlock (store.submitted ++ blocks)))
  | .relocate _ _ | .layOut _ | .advance | .append _ | .sync _ | .undo _ | .finish | .sealActive _
  | .remove _ | .record _ | .recover _ _ | .crash _ _ | .compact _ | .page _ | .resolve _
  | .readBlock _ _ | .recheck _ | .retire _ _ | .abandonCompaction _ | .reclaim | .unlink _ _
  | .forget _ _ | .syncReclaim _ => .isTrue trivial

variable {hashBlock}

theorem HasLength.unique {submitted : List Bytes} (free : CollisionFree hashBlock submitted)
    {hash : RawHash} {first second : Nat} (one : HasLength hashBlock submitted hash first)
    (two : HasLength hashBlock submitted hash second) : first = second := by
  obtain ⟨block, listed, hashes, rfl⟩ := one
  obtain ⟨other, also, same, rfl⟩ := two
  rw [free block listed other also (hashes.trans same.symm)]

theorem HasLength.mono {submitted more : List Bytes} {hash : RawHash} {length : Nat}
    (sized : HasLength hashBlock submitted hash length) (subset : submitted ⊆ more) :
    HasLength hashBlock more hash length := by
  obtain ⟨block, listed, rest⟩ := sized
  exact ⟨block, subset listed, rest⟩

theorem HasLength.lt {submitted : List Bytes} {hash : RawHash} {length : Nat}
    (sized : HasLength hashBlock submitted hash length) : length < 2 ^ 32 := by
  obtain ⟨block, _, _, rfl⟩ := sized
  exact Nat.mod_lt _ (by decide)

/-! ## Batches -/

def OpenBatch.segmentId (batch : OpenBatch) : Nat := batch.writer.segmentId

/-- Where the records of a batch begin: behind the header of a segment the group created, or at
the durable end of the active segment it continues. -/
def OpenBatch.From (index : BlockIndex) (batch : OpenBatch) (base : Nat) : Prop :=
  if batch.created then
    base = segmentHeaderLen ∧ ∀ state durableEnd, ¬index.Row batch.segmentId state durableEnd
  else index.Row batch.segmentId .active base

def RowsWithin (rows : List NewBlockRow) (base stop : Nat) : Prop :=
  ∀ row ∈ rows, base ≤ row.recordOffset ∧ row.recordOffset + recordLen row.payloadLen ≤ stop

/-- The segments of a group are its own, and it writes behind what they held before. -/
structure Opened (index : BlockIndex) (next : Nat) (batches : List OpenBatch) : Prop where
  distinct : (batches.map OpenBatch.segmentId).Nodup
  below : ∀ batch ∈ batches, batch.segmentId < next
  bases : ∀ batch ∈ batches, ∃ base, batch.From index base ∧ segmentHeaderLen ≤ base ∧
    base ≤ batch.writer.writeEnd

/-- The rows of a group name the records it stages, with their own lengths. -/
structure Filled (hashBlock : Bytes → RawHash) (submitted : List Bytes) (index : BlockIndex)
    (batches : List OpenBatch) : Prop where
  within : ∀ batch ∈ batches, ∃ base, batch.From index base ∧ segmentHeaderLen ≤ base ∧
    base ≤ batch.writer.writeEnd ∧ RowsWithin batch.rows base batch.nextOffset
  sized : ∀ batch ∈ batches, ∀ row ∈ batch.rows,
    HasLength hashBlock submitted row.hash row.payloadLen
  framed : ∀ batch ∈ batches, ∀ row ∈ batch.rows, recordLen row.payloadLen ≤ row.recordLen

/-- Only segments rolled over are sealed, never the last one. -/
structure RolledOver (next : Nat) (batches : List OpenBatch) (sealed : List Nat) : Prop where
  below : ∀ segmentId ∈ sealed, segmentId < next
  none : batches = [] → sealed = []
  last : ∀ batch, batches.getLast? = some batch → batch.segmentId ∉ sealed

def Phase.batches : Phase → List OpenBatch
  | .layOut _ batches _ => batches
  | .append done rest _ => done ++ rest
  | .sync done rest _ => done ++ rest
  | .record batches _ => batches
  | .undo rest _ => rest
  | .answer => []

/-- A group on its way into the index. -/
structure Forward (hashBlock : Bytes → RawHash) (submitted : List Bytes) (index : BlockIndex)
    (next : Nat) (batches : List OpenBatch) (sealed : List Nat) : Prop where
  filled : Filled hashBlock submitted index batches
  rolled : RolledOver next batches sealed

def Phase.Sound (hashBlock : Bytes → RawHash) (submitted : List Bytes) (index : BlockIndex)
    (next : Nat) : Phase → Prop
  | .layOut rest batches sealed =>
    Forward hashBlock submitted index next batches sealed ∧
      ∀ frame ∈ rest, HasLength hashBlock submitted frame.hash (frame.payload.length % 2 ^ 32)
  | .append done rest sealed =>
    Forward hashBlock submitted index next (done ++ rest) sealed ∧ ∀ batch ∈ done, batch.frames = []
  | .sync done rest sealed =>
    Forward hashBlock submitted index next (done ++ rest) sealed ∧
      ∀ batch ∈ done ++ rest, batch.frames = []
  | .record batches sealed =>
    Forward hashBlock submitted index next batches sealed ∧ ∀ batch ∈ batches, batch.frames = []
  | .undo rest survivor =>
    ∀ writer, survivor = some writer → index.Row writer.segmentId .active writer.writeEnd ∧
      ∀ batch ∈ rest, batch.segmentId ≠ writer.segmentId
  | .answer => True

/-! ## The store -/

def GroupState.batches (group : GroupState) : List OpenBatch :=
  match group.leader with
  | some leader => leader.phase.batches
  | none => []

/-- Nothing is, or will be, written or mapped under this number again. -/
structure Gone (group : GroupState) (segmentId : Nat) : Prop where
  below : segmentId < group.writer.nextSegmentId
  retired : ∀ state durableEnd, group.index.Row segmentId state durableEnd → state = .retired
  apart : ∀ batch ∈ group.batches, batch.segmentId ≠ segmentId

def CompactionStage.copies : CompactionStage → List RecordFrame
  | .page _ _ copies => copies
  | .relocate copies => copies
  | _ => []

/-- The block a compaction has looked up and not read yet, with the place. -/
def CompactionStage.looking : CompactionStage → Option (RawHash × BlockLocation)
  | .page (row :: _) (.located location _) _ => some (row.hash, location)
  | _ => none

structure IndexSound (hashBlock : Bytes → RawHash) (submitted : List Bytes) (index : BlockIndex) :
    Prop where
  coherent : Coherent index
  sized : ∀ row ∈ index.blocks, HasLength hashBlock submitted row.hash row.payloadLen
  framed : ∀ row ∈ index.blocks, recordLen row.payloadLen ≤ row.recordLen
  headed : ∀ segmentId state durableEnd, index.Row segmentId state durableEnd →
    segmentHeaderLen ≤ durableEnd

/-- The writer and the index agree on what is open. -/
structure GroupSound (hashBlock : Bytes → RawHash) (submitted : List Bytes) (group : GroupState) :
    Prop where
  rows : ∀ segmentId state durableEnd, group.index.Row segmentId state durableEnd →
    segmentId < group.writer.nextSegmentId
  active : ∀ writer, group.writer.active = some writer →
    group.index.Row writer.segmentId .active writer.writeEnd ∧ group.batches = []
  opened : Opened group.index group.writer.nextSegmentId group.batches
  phase : ∀ leader, group.leader = some leader →
    leader.phase.Sound hashBlock submitted group.index group.writer.nextSegmentId

/-- What compactions and reclamations hold is of blocks that were put, and of segments that are
done with. -/
structure TasksSound (hashBlock : Bytes → RawHash) (submitted : List Bytes) (group : GroupState)
    (handle : Handle) : Prop where
  reclaims : ∀ reclaim ∈ handle.reclaims, ∀ segmentId ∈ reclaim.rest, Gone group segmentId
  copies : ∀ compaction ∈ handle.compactions, ∀ copy ∈ compaction.stage.copies,
    HasLength hashBlock submitted copy.hash copy.payload.length
  looking : ∀ compaction ∈ handle.compactions, ∀ hash location,
    compaction.stage.looking = some (hash, location) →
      HasLength hashBlock submitted hash location.length

structure Sound (hashBlock : Bytes → RawHash) (store : Store) : Prop where
  free : CollisionFree hashBlock store.submitted
  index : IndexSound hashBlock store.submitted store.index
  group : ∀ handle, store.handle = some handle →
    GroupSound hashBlock store.submitted (store.group handle)
  tasks : ∀ handle, store.handle = some handle →
    TasksSound hashBlock store.submitted (store.group handle) handle

theorem sound_fresh : Sound hashBlock Store.fresh where
  free := nofun
  index := {
    coherent := coherent_empty
    sized := nofun
    framed := nofun
    headed := by
      intro segmentId state durableEnd row
      obtain ⟨_, listed, _⟩ := row
      cases listed }
  group := nofun
  tasks := nofun

/-! ## Transactions that leave a group alone -/

/-- No row appears or changes its end, retired rows stay so and active ones stay as they are. -/
structure Undisturbed (before after : BlockIndex) : Prop where
  rows : ∀ segmentId state durableEnd, after.Row segmentId state durableEnd →
    ∃ earlier, before.Row segmentId earlier durableEnd ∧ (earlier = .retired → state = .retired)
  active : ∀ segmentId durableEnd, before.Row segmentId .active durableEnd →
    after.Row segmentId .active durableEnd

theorem Undisturbed.of_rows {before after : BlockIndex}
    (same : ∀ segmentId state durableEnd, after.Row segmentId state durableEnd ↔
      before.Row segmentId state durableEnd) : Undisturbed before after where
  rows := fun _ state _ row => ⟨state, (same ..).mp row, id⟩
  active := fun _ _ row => (same ..).mpr row

theorem undisturbed_removeBlocks (index : BlockIndex) (hashes : List RawHash) :
    Undisturbed index (index.removeBlocks hashes) :=
  .of_rows fun _ _ _ => row_removeBlocks

theorem undisturbed_retireEmptySegment (index : BlockIndex) (segmentId : Nat) :
    Undisturbed index (index.retireEmptySegment segmentId) where
  rows := by
    intro other state durableEnd row
    obtain ⟨before, old, same | ⟨_, retired⟩⟩ := row_of_retireEmptySegment row
    · exact ⟨before, old, fun retired => same.trans retired⟩
    · exact ⟨before, old, fun _ => retired⟩
  active := fun _ _ row => row_retireEmptySegment_active row

variable {submitted : List Bytes} {index after : BlockIndex} {handle : Handle} {next : Nat}
  {batches : List OpenBatch} {batch : OpenBatch} {base : Nat} {group : GroupState}

theorem undisturbed_forgetSegment {segmentId : Nat} (gone : Gone group segmentId) :
    Undisturbed group.index (group.index.forgetSegment segmentId) where
  rows := fun _ state _ row => ⟨state, (row_forgetSegment.mp row).2, id⟩
  active := by
    intro other durableEnd row
    apply row_forgetSegment.mpr
    refine ⟨?_, row⟩
    intro same
    exact nomatch gone.retired .active durableEnd (same ▸ row)

theorem OpenBatch.From.undisturbed (undisturbed : Undisturbed index after)
    (opens : batch.From index base) : batch.From after base := by
  rw [OpenBatch.From] at opens ⊢
  split
  · rename_i created
    rw [if_pos created] at opens
    refine ⟨opens.1, fun state durableEnd row => ?_⟩
    obtain ⟨earlier, old, _⟩ := undisturbed.rows _ _ _ row
    exact opens.2 earlier durableEnd old
  · rename_i existing
    rw [if_neg existing] at opens
    exact undisturbed.active _ _ opens

theorem Opened.undisturbed (opened : Opened index next batches)
    (undisturbed : Undisturbed index after) : Opened after next batches where
  distinct := opened.distinct
  below := opened.below
  bases := by
    intro batch member
    obtain ⟨base, opens, rest⟩ := opened.bases batch member
    exact ⟨base, opens.undisturbed undisturbed, rest⟩

theorem Forward.undisturbed {sealed : List Nat}
    (forward : Forward hashBlock submitted index next batches sealed)
    (undisturbed : Undisturbed index after) :
    Forward hashBlock submitted after next batches sealed where
  filled := {
    within := by
      intro batch member
      obtain ⟨base, opens, rest⟩ := forward.filled.within batch member
      exact ⟨base, opens.undisturbed undisturbed, rest⟩
    sized := forward.filled.sized
    framed := forward.filled.framed }
  rolled := forward.rolled

theorem Phase.Sound.undisturbed {phase : Phase} (sound : phase.Sound hashBlock submitted index next)
    (undisturbed : Undisturbed index after) :
    phase.Sound hashBlock submitted after next := by
  cases phase with
  | layOut rest batches sealed => exact ⟨sound.1.undisturbed undisturbed, sound.2⟩
  | append done rest sealed => exact ⟨sound.1.undisturbed undisturbed, sound.2⟩
  | sync done rest sealed => exact ⟨sound.1.undisturbed undisturbed, sound.2⟩
  | record batches sealed => exact ⟨sound.1.undisturbed undisturbed, sound.2⟩
  | undo rest survivor =>
    intro writer same
    rcases sound writer same with ⟨row, apart⟩
    exact ⟨undisturbed.active _ _ row, apart⟩
  | answer => trivial

theorem GroupSound.undisturbed (sound : GroupSound hashBlock submitted group)
    (undisturbed : Undisturbed group.index after) :
    GroupSound hashBlock submitted { group with index := after } where
  rows := by
    intro segmentId state durableEnd row
    obtain ⟨earlier, old, _⟩ := undisturbed.rows _ _ _ row
    exact sound.rows segmentId earlier durableEnd old
  active := by
    intro writer same
    rcases sound.active writer same with ⟨row, idle⟩
    exact ⟨undisturbed.active _ _ row, idle⟩
  opened := sound.opened.undisturbed undisturbed
  phase := fun leader same => (sound.phase leader same).undisturbed undisturbed

theorem Gone.undisturbed {segmentId : Nat} (gone : Gone group segmentId)
    (undisturbed : Undisturbed group.index after) :
    Gone { group with index := after } segmentId where
  below := gone.below
  retired := by
    intro state durableEnd row
    obtain ⟨earlier, old, stays⟩ := undisturbed.rows _ _ _ row
    exact stays (gone.retired earlier durableEnd old)
  apart := gone.apart

theorem IndexSound.transaction (sound : IndexSound hashBlock submitted index)
    (coherent : Coherent after) (undisturbed : Undisturbed index after)
    (fewer : after.blocks ⊆ index.blocks) : IndexSound hashBlock submitted after where
  coherent := coherent
  sized := fun row member => sound.sized row (fewer member)
  framed := fun row member => sound.framed row (fewer member)
  headed := by
    intro segmentId state durableEnd row
    obtain ⟨earlier, old, _⟩ := undisturbed.rows _ _ _ row
    exact sound.headed segmentId earlier durableEnd old

end Yadorilink.Segments
