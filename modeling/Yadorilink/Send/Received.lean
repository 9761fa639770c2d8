import Yadorilink.Foundation.Fallible
import Yadorilink.Send.Receive

/-! What a receive that succeeds has left at the destinations of its entries. -/

namespace Yadorilink.Send

open Effects Transaction

variable {receiver next : Receiver}
  {change : FileTree String (List UInt8) → Option (FileTree String (List UInt8))}
  {blocks : List BlockInfo}

/-! ## Effects -/

theorem effect_eq_ok (ran : effect receiver = .ok () next) : next.device = receiver.device := by
  unfold effect at ran
  rw [bind_apply, get_apply] at ran
  dsimp only at ran
  cases pending : receiver.faults with
  | nil =>
    rw [pending] at ran
    cases ran
    rfl
  | cons met rest =>
    rw [pending] at ran
    cases met with
    | none =>
      cases ran
      rfl
    | some fault =>
      cases fault with
      | failed => cases ran
      | crashed => cases ran

theorem keeps_effect (kept : Device → Prop) : Keeps (fun receiver => kept receiver.device) effect := by
  intro receiver holds
  unfold effect
  rw [after, bind_apply, get_apply]
  dsimp only
  cases pending : receiver.faults with
  | nil => exact holds
  | cons met rest =>
    cases met with
    | none => exact holds
    | some fault =>
      cases fault with
      | failed => exact holds
      | crashed => exact holds

theorem onFiles_eq_ok (ran : onFiles change receiver = .ok () next) :
    ∃ files, change receiver.device.files = some files ∧
      next.device = { receiver.device with files } := by
  unfold onFiles at ran
  rcases bind_eq_ok_iff.mp ran with ⟨⟨⟩, middle, took, ran⟩
  rw [bind_apply, get_apply] at ran
  dsimp only at ran
  rw [effect_eq_ok took] at ran
  cases changed : change receiver.device.files with
  | none =>
    rw [changed] at ran
    cases ran
  | some files =>
    rw [changed] at ran
    cases ran
    exact ⟨files, rfl, rfl⟩

theorem keeps_onFiles {kept : Device → Prop}
    (keeps : ∀ device files, kept device → change device.files = some files →
      kept { device with files }) :
    Keeps (fun receiver => kept receiver.device) (onFiles change) := by
  apply (keeps_effect kept).bind
  intro _ receiver holds
  rw [after, bind_apply, get_apply]
  dsimp only
  cases changed : change receiver.device.files with
  | none => exact holds
  | some files => exact keeps receiver.device files holds changed

theorem getBlock_eq_ok {hash block : List UInt8} (ran : getBlock hash receiver = .ok block next) :
    receiver.device.blocks hash = some block ∧ next.device = receiver.device := by
  unfold getBlock at ran
  rcases bind_eq_ok_iff.mp ran with ⟨⟨⟩, middle, took, ran⟩
  rw [bind_apply, get_apply] at ran
  dsimp only at ran
  rw [effect_eq_ok took] at ran
  cases found : receiver.device.blocks hash with
  | none =>
    rw [found] at ran
    cases ran
  | some stored =>
    rw [found] at ran
    cases ran
    exact ⟨rfl, effect_eq_ok took⟩

theorem keeps_getBlock (kept : Device → Prop) (hash : List UInt8) :
    Keeps (fun receiver => kept receiver.device) (getBlock hash) := by
  apply (keeps_effect kept).bind
  intro _
  refine Keeps.bind keeps_get ?_
  intro receiver
  cases receiver.device.blocks hash with
  | none => exact keeps_throw _
  | some block => exact keeps_pure _

theorem putBlock_eq_ok {hashBlockBytes : List UInt8 → List UInt8} {block : List UInt8}
    (ran : putBlock hashBlockBytes block receiver = .ok () next) :
    next.device = receiver.device.put hashBlockBytes block := by
  unfold putBlock at ran
  rcases bind_eq_ok_iff.mp ran with ⟨⟨⟩, middle, took, ran⟩
  rw [modify_apply] at ran
  cases ran
  rw [effect_eq_ok took]

theorem keeps_putBlock {kept : Device → Prop} {hashBlockBytes : List UInt8 → List UInt8}
    {block : List UInt8} (keeps : ∀ device, kept device → kept (device.put hashBlockBytes block)) :
    Keeps (fun receiver => kept receiver.device) (putBlock hashBlockBytes block) := by
  apply (keeps_effect kept).bind
  intro _ receiver holds
  exact keeps receiver.device holds

theorem ofVerdict_eq_ok {α : Type} {verdict : Except String α} {value : α}
    (ran : ofVerdict verdict receiver = .ok value next) : verdict = .ok value ∧ next = receiver := by
  cases verdict with
  | error message => cases ran
  | ok found =>
    cases ran
    exact ⟨rfl, rfl⟩

theorem ofResult_eq_ok {α : Type} {result : Except SendError α} {value : α}
    (ran : ofResult result receiver = .ok value next) : result = .ok value ∧ next = receiver := by
  cases result with
  | error message => cases ran
  | ok found =>
    cases ran
    exact ⟨rfl, rfl⟩

/-! ## Files -/

def bytesOf (blocks : List UInt8 → Option (List UInt8)) (hashes : List (List UInt8)) : List UInt8 :=
  hashes.flatMap fun hash => (blocks hash).getD []

/-- The file at `outPath` has the content and nothing is at `tmpPath`; every other file and every
directory is where it was. -/
structure Wrote (tmpPath outPath : FilePath) (content : List UInt8)
    (before after : FileTree String (List UInt8)) : Prop where
  target : before outPath ≠ some .dir
  contents : ∀ place, after.contentAt place = if place = outPath then some content
    else if place = tmpPath then none else before.contentAt place
  dirs : ∀ place, before place = some .dir → after place = some .dir

theorem writeBlocks_eq_ok {tmpPath : FilePath} {written : List UInt8}
    (ran : writeBlocks tmpPath blocks receiver = .ok () next)
    (stands : receiver.device.files.contentAt tmpPath = some written) :
    ∃ files, next.device = { receiver.device with files } ∧
      (∀ block ∈ blocks, (receiver.device.blocks block.hash).isSome) ∧
      (∀ place, files.contentAt place = if place = tmpPath
        then some (written ++ bytesOf receiver.device.blocks (blocks.map (·.hash)))
        else receiver.device.files.contentAt place) ∧
      ∀ place, receiver.device.files place = some .dir → files place = some .dir := by
  induction blocks generalizing receiver written with
  | nil =>
    cases ran
    refine ⟨_, rfl, by simp, ?_, fun _ dir => dir⟩
    intro place
    split
    · rename_i same
      rw [same, stands]
      simp [bytesOf]
    · rfl
  | cons block rest induction =>
    unfold writeBlocks at ran
    rcases bind_eq_ok_iff.mp ran with ⟨data, middle, got, ran⟩
    rcases bind_eq_ok_iff.mp ran with ⟨⟨⟩, appended, wrote, ran⟩
    rcases getBlock_eq_ok got with ⟨found, same⟩
    rcases onFiles_eq_ok wrote with ⟨files, put, changed⟩
    rw [same] at put changed
    rw [stands] at put
    dsimp only [Option.bind_some] at put
    have here : appended.device.files.contentAt tmpPath = some (written ++ data) := by
      rw [changed, FileTree.contentAt_put put, if_pos rfl]
    rcases induction ran here with ⟨last, ends, rest, contents, dirs⟩
    rw [changed] at ends rest contents dirs
    refine ⟨last, ends, ?_, ?_, ?_⟩
    · intro other listed
      rcases List.mem_cons.mp listed with rfl | later
      · rw [found]
        rfl
      · exact rest other later
    · intro place
      rw [contents, FileTree.contentAt_put put]
      split
      · rw [bytesOf, bytesOf, List.map_cons, List.flatMap_cons, found, Option.getD_some,
          List.append_assoc]
      · rfl
    · intro place dir
      exact dirs place (FileTree.put_dir put dir)

theorem tryCatch_throw_eq_ok {α : Type} {work : ReceiveM α} {cleanup : SendError → ReceiveM Unit}
    {value : α}
    (ran : (tryCatch work fun failure => do
      cleanup failure
      throw failure) receiver = .ok value next) : work receiver = .ok value next := by
  have unfolded : (MonadExcept.tryCatch work (fun failure => do
      cleanup failure
      throw failure) : ReceiveM α) receiver = EStateM.tryCatch work (fun failure => do
      cleanup failure
      throw failure) receiver := rfl
  rw [unfolded, EStateM.tryCatch] at ran
  cases first : work receiver with
  | ok found reached =>
    rw [first] at ran
    exact ran
  | error failure reached =>
    rw [first] at ran
    rcases bind_eq_ok_iff.mp ran with ⟨_, _, _, thrown⟩
    cases thrown

theorem uniqueTmpPath_ne (processId number : Nat) (path : FilePath) :
    uniqueTmpPath processId number path ≠ path := by
  intro same
  rcases List.eq_nil_or_concat path with rfl | ⟨above, name, rfl⟩
  · simp [uniqueTmpPath] at same
  · rw [uniqueTmpPath] at same
    simp only [List.concat_eq_append, List.dropLast_concat, List.getLast?_append,
      List.getLast?_singleton, Option.some_or, Option.getD_some,
      List.append_cancel_left_eq, List.cons.injEq, and_true] at same
    have lengths := congrArg String.length same
    simp only [String.length_append] at lengths
    have positive : 0 < (".yadorilink-tmp." : String).length := by decide
    omega

theorem reconstructFile_eq_ok {tmpPath outPath : FilePath} (apart : tmpPath ≠ outPath)
    (ran : reconstructFile tmpPath outPath blocks receiver = .ok () next) :
    ∃ files, next.device = { receiver.device with files } ∧
      (∀ block ∈ blocks, (receiver.device.blocks block.hash).isSome) ∧
      Wrote tmpPath outPath (bytesOf receiver.device.blocks (blocks.map (·.hash)))
        receiver.device.files files := by
  rcases bind_eq_ok_iff.mp ran with ⟨⟨⟩, assembled, toTemp, persist⟩
  rcases bind_eq_ok_iff.mp toTemp with ⟨⟨⟩, checked, required, assemble⟩
  have sameStart : checked.device = receiver.device := by
    rcases bind_eq_ok_iff.mp required with ⟨⟨⟩, middle, took, rest⟩
    rw [bind_apply, get_apply] at rest
    dsimp only at rest
    split at rest
    · cases rest
    · cases rest
      exact effect_eq_ok took
  rcases bind_eq_ok_iff.mp (tryCatch_throw_eq_ok assemble) with ⟨⟨⟩, created, create, assemble⟩
  rcases bind_eq_ok_iff.mp assemble with ⟨⟨⟩, filled, fill, sync⟩
  rcases bind_eq_ok_iff.mp (tryCatch_throw_eq_ok persist) with ⟨⟨⟩, renamed, move, syncDir⟩
  rcases onFiles_eq_ok create with ⟨first, put, createdDevice⟩
  rw [sameStart] at put createdDevice
  have empty : created.device.files.contentAt tmpPath = some [] := by
    rw [createdDevice, FileTree.contentAt_put put, if_pos rfl]
  rcases writeBlocks_eq_ok fill empty with ⟨second, filledDevice, held, contents, dirs⟩
  rw [createdDevice] at filledDevice held contents dirs
  rcases onFiles_eq_ok move with ⟨third, rename, renamedDevice⟩
  rw [effect_eq_ok sync, filledDevice] at rename renamedDevice
  have full := contents tmpPath
  rw [if_pos rfl, List.nil_append] at full
  refine ⟨third, (effect_eq_ok syncDir).trans renamedDevice, held, ?_, ?_, ?_⟩
  · intro dir
    exact FileTree.rename_target_not_dir rename apart
      (dirs outPath (FileTree.put_dir put dir))
  · intro place
    rw [FileTree.contentAt_rename rename apart full]
    by_cases out : place = outPath
    · rw [if_pos out, if_pos out]
    · rw [if_neg out, if_neg out]
      by_cases temporary : place = tmpPath
      · rw [if_pos temporary, if_pos temporary]
      · rw [if_neg temporary, if_neg temporary, contents, if_neg temporary,
          FileTree.contentAt_put put, if_neg temporary]
  · intro place dir
    exact FileTree.rename_dir rename apart (dirs place (FileTree.put_dir put dir))

/-! ## Chunks -/

def ChunkStreamMessage.body? : ChunkStreamMessage → Option (List UInt8)
  | .header _ _ _ body => some body
  | _ => none

/-- Every chunk the sender streams during the attempt. -/
def Attempt.bodies (attempt : Attempt) : List (List UInt8) :=
  attempt.answers.flatten.filterMap (·.body?)

/-- The size the manifest gives a hash at the first place that names it. -/
def firstSize (files : List SendFileEntry) (hash : List UInt8) : Option (Except String Nat) :=
  files.findSome? fun entry => (entry.chunkHashes.idxOf? hash).map (chunkByteSize entry)

theorem firstSize_eq {done rest : List SendFileEntry} {entry : SendFileEntry} {index : Nat}
    {hash : List UInt8} (fresh : ∀ other ∈ done, hash ∉ other.chunkHashes)
    (named : entry.chunkHashes[index]? = some hash) (first : hash ∉ entry.chunkHashes.take index) :
    firstSize (done ++ entry :: rest) hash = some (chunkByteSize entry index) := by
  have before : done.findSome?
      (fun other => (other.chunkHashes.idxOf? hash).map (chunkByteSize other)) = none := by
    rw [List.findSome?_eq_none_iff]
    intro other listed
    rw [List.idxOf?_eq_none_iff.mpr (fresh other listed)]
    rfl
  have here : entry.chunkHashes.idxOf? hash = some index := by
    rcases List.getElem?_eq_some_iff.mp named with ⟨inside, same⟩
    rw [List.idxOf?_eq_some_iff]
    refine ⟨inside, same, ?_⟩
    intro earlier below equal
    apply first
    rw [List.mem_take_iff_getElem]
    exact ⟨earlier, by omega, equal⟩
  rw [firstSize, List.findSome?_append, before, Option.none_or, List.findSome?_cons, here]
  rfl

section Pulling

variable {hashBlockBytes : List UInt8 → List UInt8}
  {before : List UInt8 → Option (List UInt8)} {files done rest : List SendFileEntry}
  {sent : List (List UInt8)} {entry : SendFileEntry} {fileIndex : Nat}

/-- A block was there before, or the sender streamed it, and then its length is the one the
manifest gives its hash at the first place that names it. -/
def Origins (hashBlockBytes : List UInt8 → List UInt8) (files : List SendFileEntry)
    (sent : List (List UInt8)) (before blocks : List UInt8 → Option (List UInt8)) : Prop :=
  ∀ hash, blocks hash = before hash ∨
    (before hash = none ∧ ∃ block, blocks hash = some block ∧ hashBlockBytes block = hash ∧
      block ∈ sent ∧ firstSize files hash = some (.ok block.length))

/-- Blocks are only added, and nothing else changes. -/
structure Grew (device next : Device) : Prop where
  inbox : next.inbox = device.inbox
  files : next.files = device.files
  blocks : ∀ hash, (device.blocks hash).isSome → next.blocks hash = device.blocks hash

theorem Grew.refl (device : Device) : Grew device device := ⟨rfl, rfl, fun _ _ => rfl⟩

theorem Grew.held {device next : Device} (grew : Grew device next) {hash : List UInt8}
    (held : (device.blocks hash).isSome) : (next.blocks hash).isSome := by
  rwa [grew.blocks hash held]

theorem Grew.trans {device middle last : Device} (first : Grew device middle)
    (second : Grew middle last) : Grew device last where
  inbox := second.inbox.trans first.inbox
  files := second.files.trans first.files
  blocks hash held := (second.blocks hash (first.held held)).trans (first.blocks hash held)

theorem Device.grew_put (device : Device) (block : List UInt8) :
    Grew device (device.put hashBlockBytes block) := by
  unfold Device.put
  split
  · exact Grew.refl device
  · rename_i absent
    refine ⟨rfl, rfl, ?_⟩
    intro hash held
    apply Function.update_of_ne
    rintro rfl
    exact absent held

theorem Device.put_held (device : Device) (block : List UInt8) :
    ((device.put hashBlockBytes block).blocks (hashBlockBytes block)).isSome := by
  unfold Device.put
  split
  · assumption
  · simp

/-- A chunk that is new has the size of its hash's first place: every earlier place names a block
that is there. -/
theorem Origins.put {device : Device} {block : List UInt8} {index : Nat}
    (origins : Origins hashBlockBytes files sent before device.blocks)
    (placed : files = done ++ entry :: rest)
    (doneHeld : ∀ other ∈ done, ∀ hash ∈ other.chunkHashes, (device.blocks hash).isSome)
    (startHeld : ∀ hash ∈ entry.chunkHashes.take index, (device.blocks hash).isSome)
    (named : entry.chunkHashes[index]? = some (hashBlockBytes block))
    (sized : chunkByteSize entry index = .ok block.length) (member : block ∈ sent) :
    Origins hashBlockBytes files sent before (device.put hashBlockBytes block).blocks := by
  unfold Device.put
  split
  · exact origins
  · rename_i absent
    intro hash
    by_cases same : hash = hashBlockBytes block
    · right
      have wasAbsent : device.blocks hash = none := by
        rw [same]
        simpa using absent
      refine ⟨?_, block, ?_, same.symm, member, ?_⟩
      · rcases origins hash with equal | ⟨none, _⟩
        · rw [← equal, wasAbsent]
        · exact none
      · rw [same]
        exact Function.update_self ..
      · rw [placed, ← sized]
        apply firstSize_eq
        · intro other listed earlier
          have held := doneHeld other listed hash earlier
          rw [wasAbsent] at held
          cases held
        · rw [named, same]
        · intro earlier
          have held := startHeld hash earlier
          rw [wasAbsent] at held
          cases held
    · dsimp only
      rw [Function.update_of_ne same]
      exact origins hash

theorem receiveChunk_eq_ok {position chunkIndex size : Nat} {body : List UInt8}
    (ran : receiveChunk hashBlockBytes fileIndex entry position chunkIndex size body receiver =
      .ok () next) :
    entry.chunkHashes[position]? = some (hashBlockBytes body) ∧
      chunkByteSize entry position = .ok body.length ∧
      next.device = receiver.device.put hashBlockBytes body := by
  unfold receiveChunk at ran
  by_cases index : chunkIndex = position
  · rw [if_neg (not_not.mpr index)] at ran
    rcases bind_eq_ok_iff.mp ran with ⟨expected, middle, judged, checked⟩
    rcases ofVerdict_eq_ok judged with ⟨sized, same⟩
    rw [same] at checked
    by_cases declared : size = expected
    · rw [if_neg (not_not.mpr declared)] at checked
      by_cases read : body.length = size
      · rw [if_neg (not_not.mpr read)] at checked
        by_cases hashed : entry.chunkHashes[chunkIndex]? = some (hashBlockBytes body)
        · rw [if_neg (not_not.mpr hashed)] at checked
          refine ⟨index ▸ hashed, ?_, putBlock_eq_ok checked⟩
          rw [← index, sized, read, declared]
        · rw [if_pos hashed] at checked
          cases checked
      · rw [if_pos read] at checked
        cases checked
    · rw [if_pos declared] at checked
      cases checked
  · rw [if_pos index] at ran
    cases ran

theorem pullChunks_eq_ok {position : Nat} {stream : List ChunkStreamMessage}
    (origins : Origins hashBlockBytes files sent before receiver.device.blocks)
    (placed : files = done ++ entry :: rest)
    (doneHeld : ∀ other ∈ done, ∀ hash ∈ other.chunkHashes, (receiver.device.blocks hash).isSome)
    (startHeld : ∀ hash ∈ entry.chunkHashes.take position, (receiver.device.blocks hash).isSome)
    (streamed : ∀ message ∈ stream, ∀ body ∈ message.body?, body ∈ sent)
    (ran : pullChunks hashBlockBytes fileIndex entry position stream receiver = .ok () next) :
    Grew receiver.device next.device ∧
      Origins hashBlockBytes files sent before next.device.blocks := by
  induction stream generalizing receiver position with
  | nil =>
    unfold pullChunks at ran
    split at ran
    · cases ran
    · cases ran
      exact ⟨Grew.refl _, origins⟩
  | cons message stream induction =>
    unfold pullChunks at ran
    split at ran
    · cases message with
      | rejected reason => cases ran
      | empty => cases ran
      | header chunkIndex size lastChunk body =>
        rcases bind_eq_ok_iff.mp ran with ⟨⟨⟩, middle, received, continued⟩
        rcases receiveChunk_eq_ok received with ⟨named, sized, stored⟩
        have grew : Grew receiver.device middle.device :=
          stored ▸ receiver.device.grew_put body
        have newOrigins := origins.put placed doneHeld startHeld named sized
          (streamed _ (.head _) body rfl)
        rw [← stored] at newOrigins
        cases lastChunk with
        | true =>
          cases continued
          exact ⟨grew, newOrigins⟩
        | false =>
          have held : ∀ hash ∈ entry.chunkHashes.take (position + 1),
              (middle.device.blocks hash).isSome := by
            intro hash listed
            rw [List.take_add_one, List.mem_append, named] at listed
            rcases listed with earlier | here
            · exact grew.held (startHeld hash earlier)
            · rw [List.mem_singleton.mp here, stored]
              exact receiver.device.put_held body
          rcases induction newOrigins
            (fun other listed hash inside => grew.held (doneHeld other listed hash inside))
            held (fun message member => streamed message (.tail _ member))
            continued with ⟨later, lastOrigins⟩
          exact ⟨grew.trans later, lastOrigins⟩
    · cases ran
      exact ⟨Grew.refl _, origins⟩

theorem pullMissing_eq_ok {stream : List ChunkStreamMessage}
    (origins : Origins hashBlockBytes files sent before receiver.device.blocks)
    (placed : files = done ++ entry :: rest)
    (doneHeld : ∀ other ∈ done, ∀ hash ∈ other.chunkHashes, (receiver.device.blocks hash).isSome)
    (streamed : ∀ message ∈ stream, ∀ body ∈ message.body?, body ∈ sent)
    (ran : pullMissing hashBlockBytes fileIndex entry stream receiver = .ok () next) :
    Grew receiver.device next.device ∧
      Origins hashBlockBytes files sent before next.device.blocks := by
  rcases bind_eq_ok_iff.mp ran with ⟨missing, looked, look, pull⟩
  rcases bind_eq_ok_iff.mp look with ⟨⟨⟩, started, took, found⟩
  rw [bind_apply, get_apply] at found
  cases found
  have same := effect_eq_ok took
  cases missing : entry.chunkHashes.findIdx? fun hash => (looked.device.blocks hash).isNone with
  | none =>
    rw [missing] at pull
    cases pull
    rw [← same] at origins ⊢
    exact ⟨Grew.refl _, origins⟩
  | some start =>
    rw [missing] at pull
    rcases bind_eq_ok_iff.mp pull with ⟨⟨⟩, dialed, dial, pull⟩
    rw [← same, ← effect_eq_ok dial] at origins doneHeld ⊢
    refine pullChunks_eq_ok origins placed doneHeld ?_ streamed pull
    intro hash listed
    rcases List.findIdx?_eq_some_iff_getElem.mp missing with ⟨_, _, earlier⟩
    rcases List.mem_take_iff_getElem.mp listed with ⟨index, below, rfl⟩
    have bounded : index < start :=
      lt_of_lt_of_le (lt_of_lt_of_le below (Nat.min_le_left ..)) (Nat.mod_le start (2 ^ 32))
    rw [effect_eq_ok dial, Option.isSome_iff_ne_none]
    simpa using earlier index bounded

end Pulling

/-! ## Files in turn -/

theorem map_hash_mapM_blockInfo {entry : SendFileEntry} {places : List (List UInt8 × Nat)}
    (made : places.mapM (blockInfo entry) = .ok blocks) :
    blocks.map (·.hash) = places.map (·.1) := by
  induction places generalizing blocks with
  | nil =>
    cases made
    rfl
  | cons place places induction =>
    rw [List.mapM_cons] at made
    rcases Fallible.bind_eq_ok_iff.mp made with ⟨block, first, made⟩
    rcases Fallible.bind_eq_ok_iff.mp made with ⟨others, later, made⟩
    rcases Fallible.bind_eq_ok_iff.mp first with ⟨size, _, first⟩
    cases made
    cases first
    rw [List.map_cons, List.map_cons, induction later]

theorem map_hash_blockInfos {entry : SendFileEntry} (made : blockInfos entry = .ok blocks) :
    blocks.map (·.hash) = entry.chunkHashes := by
  rw [map_hash_mapM_blockInfo made, List.zipIdx_map_fst]

def destinationOf (root : FilePath) (entry : SendFileEntry) : FilePath :=
  match safeJoin root entry.relativePath with
  | .ok path => path
  | .error _ => root

section Landing

variable {hashBlockBytes : List UInt8 → List UInt8}
  {before : List UInt8 → Option (List UInt8)} {files done rest : List SendFileEntry}
  {attempt : Attempt} {root : FilePath} {entry : SendFileEntry} {fileIndex : Nat}

theorem bytesOf_congr {blocks other : List UInt8 → Option (List UInt8)}
    {hashes : List (List UInt8)} (same : ∀ hash ∈ hashes, blocks hash = other hash) :
    bytesOf blocks hashes = bytesOf other hashes := by
  rw [bytesOf, bytesOf, List.flatMap_def, List.flatMap_def]
  congr 1
  apply List.map_congr_left
  intro hash listed
  rw [same hash listed]

theorem Attempt.streamed_mem_bodies (attempt : Attempt) (fileIndex : Nat) :
    ∀ message ∈ attempt.answers[fileIndex]?.getD [], ∀ body ∈ message.body?,
      body ∈ attempt.bodies := by
  intro message listed body shown
  rw [Attempt.bodies, List.mem_filterMap]
  refine ⟨message, ?_, shown⟩
  rw [List.mem_flatten]
  cases found : attempt.answers[fileIndex]? with
  | none =>
    rw [found] at listed
    cases listed
  | some stream =>
    rw [found] at listed
    exact ⟨stream, List.mem_of_getElem? found, listed⟩

/-- What the receive of one file leaves. -/
structure Landed (hashBlockBytes : List UInt8 → List UInt8) (files : List SendFileEntry)
    (attempt : Attempt) (root : FilePath) (before : List UInt8 → Option (List UInt8))
    (fileIndex : Nat) (entry : SendFileEntry) (device next : Device) : Prop where
  joined : safeJoin root entry.relativePath = .ok (destinationOf root entry)
  inbox : next.inbox = device.inbox
  grown : ∀ hash, (device.blocks hash).isSome → next.blocks hash = device.blocks hash
  origins : Origins hashBlockBytes files attempt.bodies before next.blocks
  held : ∀ hash ∈ entry.chunkHashes, (next.blocks hash).isSome
  wrote : Wrote (attempt.tmpPath fileIndex (destinationOf root entry)) (destinationOf root entry)
    (bytesOf next.blocks entry.chunkHashes) device.files next.files

theorem createParent_eq_ok {outPath : FilePath} (ran : createParent outPath receiver = .ok () next) :
    ∃ tree, next.device = { receiver.device with files := tree } ∧
      (∀ place, tree.contentAt place = receiver.device.files.contentAt place) ∧
      ∀ place, receiver.device.files place = some .dir → tree place = some .dir := by
  unfold createParent at ran
  split at ran
  · cases ran
    exact ⟨_, rfl, fun _ => rfl, fun _ dir => dir⟩
  · rcases onFiles_eq_ok ran with ⟨tree, made, changed⟩
    exact ⟨tree, changed, fun _ => FileTree.contentAt_createDirAll made,
      fun _ dir => FileTree.createDirAll_dir made dir⟩

theorem receiveFile_eq_ok
    (origins : Origins hashBlockBytes files attempt.bodies before receiver.device.blocks)
    (placed : files = done ++ entry :: rest)
    (doneHeld : ∀ other ∈ done, ∀ hash ∈ other.chunkHashes, (receiver.device.blocks hash).isSome)
    (ran : receiveFile hashBlockBytes attempt root fileIndex entry receiver = .ok () next) :
    Landed hashBlockBytes files attempt root before fileIndex entry receiver.device next.device := by
  rcases bind_eq_ok_iff.mp ran with ⟨⟨⟩, pulled, pull, joining⟩
  rcases bind_eq_ok_iff.mp joining with ⟨outPath, afterJoin, join, infos⟩
  rcases bind_eq_ok_iff.mp infos with ⟨blocks, afterInfos, list, making⟩
  rcases bind_eq_ok_iff.mp making with ⟨⟨⟩, made, make, reconstruct⟩
  rcases pullMissing_eq_ok origins placed doneHeld (attempt.streamed_mem_bodies fileIndex) pull
    with ⟨grew, newOrigins⟩
  rcases ofResult_eq_ok join with ⟨joined, sameJoin⟩
  rcases ofVerdict_eq_ok list with ⟨listed, sameInfos⟩
  rcases createParent_eq_ok make with ⟨tree, madeDevice, contents, dirs⟩
  rw [sameInfos, sameJoin] at madeDevice contents dirs
  rcases reconstructFile_eq_ok (uniqueTmpPath_ne _ _ _) reconstruct with ⟨last, ends, held, wrote⟩
  rw [madeDevice] at ends held wrote
  rw [map_hash_blockInfos listed] at wrote
  have destination : destinationOf root entry = outPath := by
    rw [destinationOf, joined]
  refine ⟨destination ▸ joined, ?_, ?_, ?_, ?_, ?_⟩
  · rw [ends, ← grew.inbox]
  · intro hash there
    rw [ends]
    exact grew.blocks hash there
  · rw [ends]
    exact newOrigins
  · intro hash named
    rw [← map_hash_blockInfos listed] at named
    rcases List.mem_map.mp named with ⟨block, member, rfl⟩
    rw [ends]
    exact held block member
  · rw [destination, ends, ← grew.files]
    refine ⟨?_, ?_, ?_⟩
    · intro dir
      exact wrote.target (dirs outPath dir)
    · intro place
      rw [wrote.contents, contents]
      rfl
    · intro place dir
      exact wrote.dirs place (dirs place dir)

/-- The content of each file after the entries were received in turn: an entry's temporary file is
gone, and its destination has its bytes. -/
def touchAll (attempt : Attempt) (root : FilePath) (bytes : SendFileEntry → List UInt8) :
    Nat → List SendFileEntry → (FilePath → Option (List UInt8)) → FilePath → Option (List UInt8)
  | _, [], contents => contents
  | fileIndex, entry :: rest, contents =>
    touchAll attempt root bytes (fileIndex + 1) rest fun place =>
      if place = destinationOf root entry then some (bytes entry)
      else if place = attempt.tmpPath fileIndex (destinationOf root entry) then none
      else contents place

/-- The entry neither goes to the place nor has its temporary file there. -/
def Untouched (attempt : Attempt) (root : FilePath) (fileIndex : Nat) (entry : SendFileEntry)
    (place : FilePath) : Prop :=
  destinationOf root entry ≠ place ∧
    attempt.tmpPath fileIndex (destinationOf root entry) ≠ place

theorem touchAll_eq_some_iff {bytes : SendFileEntry → List UInt8} {entries : List SendFileEntry}
    {contents : FilePath → Option (List UInt8)} {place : FilePath} {content : List UInt8} :
    touchAll attempt root bytes fileIndex entries contents place = some content ↔
      (∃ position entry, entries[position]? = some entry ∧ destinationOf root entry = place ∧
        bytes entry = content ∧ ∀ later other, position < later → entries[later]? = some other →
          Untouched attempt root (fileIndex + later) other place) ∨
      (contents place = some content ∧ ∀ later other, entries[later]? = some other →
        Untouched attempt root (fileIndex + later) other place) := by
  induction entries generalizing fileIndex contents with
  | nil => simp [touchAll]
  | cons entry rest induction =>
    rw [touchAll, induction]
    constructor
    · rintro (⟨position, other, found, goes, same, untouched⟩ | ⟨here, untouched⟩)
      · refine .inl ⟨position + 1, other, found, goes, same, ?_⟩
        intro later last below listed
        cases later with
        | zero => omega
        | succ later =>
          rw [Nat.add_succ, ← Nat.succ_add]
          exact untouched later last (by omega) listed
      · have tail : ∀ later other, 0 < later → (entry :: rest)[later]? = some other →
            Untouched attempt root (fileIndex + later) other place := by
          intro later other positive listed
          cases later with
          | zero => omega
          | succ later =>
            rw [Nat.add_succ, ← Nat.succ_add]
            exact untouched later other listed
        by_cases goes : place = destinationOf root entry
        · rw [if_pos goes] at here
          exact .inl ⟨0, entry, rfl, goes.symm, Option.some.inj here, tail⟩
        · rw [if_neg goes] at here
          by_cases temporary : place = attempt.tmpPath fileIndex (destinationOf root entry)
          · rw [if_pos temporary] at here
            cases here
          · rw [if_neg temporary] at here
            refine .inr ⟨here, ?_⟩
            intro later other listed
            cases later with
            | zero =>
              cases listed
              exact ⟨fun same => goes same.symm, fun same => temporary same.symm⟩
            | succ later => exact tail _ other (by omega) listed
    · rintro (⟨position, other, found, goes, same, untouched⟩ | ⟨here, untouched⟩)
      · cases position with
        | zero =>
          cases found
          right
          rw [if_pos goes.symm, same]
          refine ⟨rfl, ?_⟩
          intro later other listed
          rw [Nat.succ_add, ← Nat.add_succ]
          exact untouched (later + 1) other (by omega) listed
        | succ position =>
          refine .inl ⟨position, other, found, goes, same, ?_⟩
          intro later last below listed
          rw [Nat.succ_add, ← Nat.add_succ]
          exact untouched (later + 1) last (by omega) listed
      · right
        have first := untouched 0 entry rfl
        rw [if_neg (fun same => first.1 same.symm), if_neg (fun same => first.2 same.symm)]
        refine ⟨here, ?_⟩
        intro later other listed
        rw [Nat.succ_add, ← Nat.add_succ]
        exact untouched (later + 1) other listed

/-- What the receive of the files leaves, from one of them on. -/
structure AllLanded (hashBlockBytes : List UInt8 → List UInt8) (files : List SendFileEntry)
    (attempt : Attempt) (root : FilePath) (before : List UInt8 → Option (List UInt8))
    (fileIndex : Nat) (entries : List SendFileEntry) (device next : Device) : Prop where
  joined : ∀ entry ∈ entries, safeJoin root entry.relativePath = .ok (destinationOf root entry)
  inside : device.files root = some .dir → ∀ entry ∈ entries, destinationOf root entry ≠ root
  inbox : next.inbox = device.inbox
  grown : ∀ hash, (device.blocks hash).isSome → next.blocks hash = device.blocks hash
  origins : Origins hashBlockBytes files attempt.bodies before next.blocks
  held : ∀ entry ∈ entries, ∀ hash ∈ entry.chunkHashes, (next.blocks hash).isSome
  contents : next.files.contentAt = touchAll attempt root
    (fun entry => bytesOf next.blocks entry.chunkHashes) fileIndex entries device.files.contentAt

theorem receiveFiles_eq_ok {entries : List SendFileEntry}
    (origins : Origins hashBlockBytes files attempt.bodies before receiver.device.blocks)
    (placed : files = done ++ entries)
    (doneHeld : ∀ other ∈ done, ∀ hash ∈ other.chunkHashes, (receiver.device.blocks hash).isSome)
    (ran : receiveFiles hashBlockBytes attempt root fileIndex entries receiver = .ok () next) :
    AllLanded hashBlockBytes files attempt root before fileIndex entries receiver.device
      next.device := by
  induction entries generalizing receiver fileIndex done with
  | nil =>
    cases ran
    exact ⟨by simp, by simp, rfl, fun _ _ => rfl, origins, by simp, rfl⟩
  | cons entry rest induction =>
    rcases bind_eq_ok_iff.mp ran with ⟨⟨⟩, middle, one, others⟩
    have first := receiveFile_eq_ok origins placed doneHeld one
    have heldNow : ∀ other ∈ done ++ [entry], ∀ hash ∈ other.chunkHashes,
        (middle.device.blocks hash).isSome := by
      intro other listed hash named
      rcases List.mem_append.mp listed with earlier | here
      · rw [first.grown hash (doneHeld other earlier hash named)]
        exact doneHeld other earlier hash named
      · rw [List.mem_singleton.mp here] at named
        exact first.held hash named
    have later := induction first.origins (by rw [placed, List.append_assoc]; rfl) heldNow others
    refine ⟨?_, ?_, later.inbox.trans first.inbox, ?_, later.origins, ?_, ?_⟩
    · exact List.forall_mem_cons.mpr ⟨first.joined, later.joined⟩
    · intro dir other listed
      rcases List.mem_cons.mp listed with rfl | inRest
      · intro same
        apply first.wrote.target
        rw [same]
        exact dir
      · exact later.inside (first.wrote.dirs root dir) other inRest
    · intro hash there
      rw [later.grown hash (first.grown hash there ▸ there), first.grown hash there]
    · intro other listed
      rcases List.mem_cons.mp listed with rfl | inRest
      · intro hash named
        rw [later.grown hash (first.held hash named)]
        exact first.held hash named
      · exact later.held other inRest
    · rw [later.contents, touchAll]
      congr 1
      funext place
      rw [first.wrote.contents, bytesOf_congr
        fun hash named => later.grown hash (first.held hash named)]

end Landing

/-! ## The receive -/

section Receives

variable {hashBlockBytes : List UInt8 → List UInt8} {locate : String → FilePath}
  {defaultInboxDir transferId : String} {attempt : Attempt} {outcome : ReceiveOutcome}

theorem claimDestination_eq_ok {requestedDir dir : String}
    (ran : claimDestination transferId requestedDir receiver = .ok dir next) :
    dir = receiver.device.claimedDir transferId requestedDir ∧
      next.device = receiver.device.claim transferId requestedDir := by
  rcases bind_eq_ok_iff.mp ran with ⟨⟨⟩, middle, took, ran⟩
  rw [bind_apply, get_apply] at ran
  cases ran
  rw [effect_eq_ok took]
  exact ⟨rfl, rfl⟩

theorem receiveTransfer_eq_ok
    (ran : receiveTransfer hashBlockBytes locate defaultInboxDir transferId attempt receiver =
      .ok outcome next) :
    ∃ inbound claimed requestedDir,
      receiver.device.inbox.getInbound transferId = some inbound ∧
      claimed.device = receiver.device.claim transferId requestedDir ∧
      receiveInto hashBlockBytes locate transferId attempt inbound
        (receiver.device.claimedDir transferId requestedDir) claimed = .ok outcome next := by
  rcases bind_eq_ok_iff.mp ran with ⟨⟨⟩, start, begin_, ran⟩
  rw [modify_apply] at begin_
  cases begin_
  rcases bind_eq_ok_iff.mp ran with ⟨⟨⟩, looked, look, ran⟩
  rw [bind_apply, get_apply] at ran
  dsimp only at ran
  have same : looked.device = receiver.device := by
    have took := effect_eq_ok look
    exact took
  rw [same] at ran
  cases found : receiver.device.inbox.getInbound transferId with
  | none =>
    rw [found] at ran
    cases ran
  | some inbound =>
    rw [found] at ran
    rcases bind_eq_ok_iff.mp ran with ⟨dir, claimed, claim, into⟩
    rcases claimDestination_eq_ok claim with ⟨answered, claimedDevice⟩
    rw [answered, same] at into
    rw [same] at claimedDevice
    exact ⟨inbound, claimed, _, rfl, claimedDevice, into⟩

theorem receiveInto_eq_ok {inbound : InboundTransfer} {dir : String}
    (ran : receiveInto hashBlockBytes locate transferId attempt inbound dir receiver =
      .ok outcome next) :
    outcome.destinationDir = dir ∧ ∃ started last,
      started.files (locate dir) = some .dir ∧
      AllLanded hashBlockBytes inbound.manifest.files attempt (locate dir)
        receiver.device.blocks 0 inbound.manifest.files started last ∧
      next.device.blocks = last.blocks ∧ next.device.files = last.files := by
  rcases bind_eq_ok_iff.mp ran with ⟨⟨⟩, made, make, ran⟩
  rcases onFiles_eq_ok make with ⟨tree, created, madeDevice⟩
  split at ran
  · rcases bind_eq_ok_iff.mp ran with ⟨⟨⟩, received, receive, ran⟩
    rcases bind_eq_ok_iff.mp ran with ⟨⟨⟩, completed, complete, ran⟩
    rw [pure_apply] at ran
    cases ran
    rcases bind_eq_ok_iff.mp complete with ⟨⟨⟩, paused, took, complete⟩
    rw [modify_apply] at complete
    cases complete
    rw [effect_eq_ok took]
    refine ⟨rfl, made.device, received.device, ?_, ?_, rfl, rfl⟩
    · rw [madeDevice]
      exact FileTree.createDirAll_self created
    · refine receiveFiles_eq_ok ?_ (List.nil_append _).symm ?_ receive
      · intro hash
        rw [madeDevice]
        exact .inl rfl
      · intro other listed
        cases listed
  · cases ran

end Receives

end Yadorilink.Send
