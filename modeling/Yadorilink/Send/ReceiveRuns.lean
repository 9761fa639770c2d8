import Yadorilink.Send.Received

/-! A receive over its whole history: attempts that were interrupted at any effect, blocks that
other transfers stored meanwhile, and the attempt that succeeds. -/

namespace Yadorilink.Send

open Effects Transaction

/-! ## Nothing outside the directory -/

/-- The blocks are stored under their own hash, the files outside `root` are those of `initial`,
and the inbox is as `inboxKept` says. -/
structure Within (hashBlockBytes : List UInt8 → List UInt8) (pool : Set (List UInt8))
    (root : FilePath) (initial : FileTree String (List UInt8)) (inboxKept : Inbox → Prop)
    (device : Device) : Prop where
  blocks : ∀ hash block, device.blocks hash = some block →
    hashBlockBytes block = hash ∧ block ∈ pool
  files : FileTree.AgreeOutside root initial device.files
  inbox : inboxKept device.inbox

variable {device : Device}

section Keeping

variable {hashBlockBytes : List UInt8 → List UInt8} {pool : Set (List UInt8)} {root : FilePath}
  {initial : FileTree String (List UInt8)} {inboxKept : Inbox → Prop} {attempt : Attempt}
  {fileIndex : Nat} {entry : SendFileEntry} {tmpPath outPath : FilePath}

theorem put_addressed {block : List UInt8}
    (blocks : ∀ hash stored, device.blocks hash = some stored →
      hashBlockBytes stored = hash ∧ stored ∈ pool) (member : block ∈ pool) :
    ∀ hash stored, (device.put hashBlockBytes block).blocks hash = some stored →
      hashBlockBytes stored = hash ∧ stored ∈ pool := by
  unfold Device.put
  split
  · exact blocks
  · intro hash stored found
    dsimp only at found
    by_cases same : hash = hashBlockBytes block
    · rw [same, Function.update_self] at found
      cases found
      exact ⟨same.symm, member⟩
    · rw [Function.update_of_ne same] at found
      exact blocks hash stored found

theorem Within.put {device : Device} {block : List UInt8}
    (within : Within hashBlockBytes pool root initial inboxKept device) (member : block ∈ pool) :
    Within hashBlockBytes pool root initial inboxKept (device.put hashBlockBytes block) where
  blocks := put_addressed within.blocks member
  files := (@Device.grew_put hashBlockBytes device block).files ▸ within.files
  inbox := (@Device.grew_put hashBlockBytes device block).inbox ▸ within.inbox

theorem keeps_ofVerdict {α : Type} {kept : Receiver → Prop} (verdict : Except String α) :
    Keeps kept (ofVerdict verdict) := by
  cases verdict with
  | ok value => exact keeps_pure _
  | error message => exact keeps_throw _

theorem keeps_onFiles_within
    {change : FileTree String (List UInt8) → Option (FileTree String (List UInt8))}
    (agree : ∀ files next, FileTree.AgreeOutside root initial files → change files = some next →
      FileTree.AgreeOutside root initial next) :
    Keeps (fun receiver => Within hashBlockBytes pool root initial inboxKept receiver.device)
      (onFiles change) := by
  apply keeps_onFiles
  intro device files within changed
  exact ⟨within.blocks, agree device.files files within.files changed, within.inbox⟩

theorem keeps_discardTempFile (inside : root <+: tmpPath) (failure : SendError) :
    Keeps (fun receiver => Within hashBlockBytes pool root initial inboxKept receiver.device)
      (discardTempFile failure tmpPath) := by
  unfold discardTempFile
  split
  · exact keeps_pure _
  · apply Keeps.tryCatch
    · apply (keeps_effect _).bind
      intro _ receiver within
      exact ⟨within.blocks, within.files.remove inside, within.inbox⟩
    · intro _
      exact keeps_pure _

theorem keeps_discarding {work : ReceiveM Unit} (inside : root <+: tmpPath)
    (keeps : Keeps (fun receiver =>
      Within hashBlockBytes pool root initial inboxKept receiver.device) work) :
    Keeps (fun receiver => Within hashBlockBytes pool root initial inboxKept receiver.device)
      (tryCatch work fun failure => do
        discardTempFile failure tmpPath
        throw failure) := by
  apply keeps.tryCatch
  intro failure
  apply (keeps_discardTempFile inside failure).bind
  intro _
  exact keeps_throw _

theorem keeps_writeBlocks (inside : root <+: tmpPath) (blocks : List BlockInfo) :
    Keeps (fun receiver => Within hashBlockBytes pool root initial inboxKept receiver.device)
      (writeBlocks tmpPath blocks) := by
  induction blocks with
  | nil => exact keeps_pure _
  | cons block rest induction =>
    apply (keeps_getBlock _ _).bind
    intro data
    refine Keeps.bind (keeps_onFiles_within ?_) (fun _ => induction)
    intro files next agree changed
    rcases Option.bind_eq_some_iff.mp changed with ⟨written, _, put⟩
    exact agree.put inside put

theorem keeps_requireParentDirectory (kept : Device → Prop) :
    Keeps (fun receiver => kept receiver.device) (requireParentDirectory outPath) := by
  apply (keeps_effect kept).bind
  intro _
  refine Keeps.bind keeps_get ?_
  intro receiver
  split
  · exact keeps_throw _
  · exact keeps_pure _

theorem keeps_reconstructFile (temporary : root <+: tmpPath) (out : root <+: outPath)
    (apart : tmpPath ≠ outPath) (blocks : List BlockInfo) :
    Keeps (fun receiver => Within hashBlockBytes pool root initial inboxKept receiver.device)
      (reconstructFile tmpPath outPath blocks) := by
  apply Keeps.bind
  · apply (keeps_requireParentDirectory _).bind
    intro _
    apply keeps_discarding temporary
    refine Keeps.bind (keeps_onFiles_within fun files next agree put => agree.put temporary put) ?_
    intro _
    apply (keeps_writeBlocks temporary blocks).bind
    intro _
    exact keeps_effect _
  · intro _
    apply keeps_discarding temporary
    refine Keeps.bind (keeps_onFiles_within fun files next agree moved =>
      agree.rename temporary out apart moved) ?_
    intro _
    exact keeps_effect _

theorem keeps_receiveChunk {position chunkIndex size : Nat} {body : List UInt8}
    (member : body ∈ pool) :
    Keeps (fun receiver => Within hashBlockBytes pool root initial inboxKept receiver.device)
      (receiveChunk hashBlockBytes fileIndex entry position chunkIndex size body) := by
  unfold receiveChunk
  split
  · exact keeps_throw _
  · refine Keeps.bind (keeps_ofVerdict _) ?_
    intro expected
    split
    · exact keeps_throw _
    · split
      · exact keeps_throw _
      · split
        · exact keeps_throw _
        · apply keeps_putBlock
          intro device within
          exact within.put member

theorem keeps_pullChunks {stream : List ChunkStreamMessage} {position : Nat}
    (streamed : ∀ message ∈ stream, ∀ body ∈ message.body?, body ∈ pool) :
    Keeps (fun receiver => Within hashBlockBytes pool root initial inboxKept receiver.device)
      (pullChunks hashBlockBytes fileIndex entry position stream) := by
  induction stream generalizing position with
  | nil =>
    unfold pullChunks
    split
    · exact keeps_throw _
    · exact keeps_pure _
  | cons message stream induction =>
    unfold pullChunks
    split
    · cases message with
      | rejected reason => exact keeps_throw _
      | empty => exact keeps_throw _
      | header chunkIndex size lastChunk body =>
        apply Keeps.bind
        · exact keeps_receiveChunk (streamed _ (.head _) body rfl)
        · intro _
          split
          · exact keeps_pure _
          · exact induction fun message member =>
              streamed message (.tail _ member)
    · exact keeps_pure _

theorem keeps_pullMissing {stream : List ChunkStreamMessage}
    (streamed : ∀ message ∈ stream, ∀ body ∈ message.body?, body ∈ pool) :
    Keeps (fun receiver => Within hashBlockBytes pool root initial inboxKept receiver.device)
      (pullMissing hashBlockBytes fileIndex entry stream) := by
  apply Keeps.bind
  · apply (keeps_effect _).bind
    intro _
    refine Keeps.bind keeps_get ?_
    intro receiver
    exact keeps_pure _
  · intro missing
    cases missing with
    | none => exact keeps_pure _
    | some start =>
      apply (keeps_effect _).bind
      intro _
      exact keeps_pullChunks streamed

theorem safeJoin_eq_ok {relative : String} (joined : safeJoin root relative = .ok outPath) :
    outPath = root ++ pathComponents relative := by
  rw [safeJoin] at joined
  split at joined
  · cases joined
  · cases joined
    rfl

theorem keeps_receiveFile {base : FilePath}
    (inside : ∀ outPath, safeJoin root entry.relativePath = .ok outPath → base <+: outPath.dropLast)
    (streamed : ∀ body ∈ attempt.bodies, body ∈ pool) :
    Keeps (fun receiver => Within hashBlockBytes pool base initial inboxKept receiver.device)
      (receiveFile hashBlockBytes attempt root fileIndex entry) := by
  apply Keeps.bind
  · apply keeps_pullMissing
    intro message listed body shown
    exact streamed body (attempt.streamed_mem_bodies fileIndex message listed body shown)
  · intro _
    cases joined : safeJoin root entry.relativePath with
    | error failure => exact fun _ within => within
    | ok outPath =>
      have above := inside outPath joined
      change Keeps _ (do
        let blocks ← ofVerdict (blockInfos entry)
        createParent outPath
        reconstructFile (attempt.tmpPath fileIndex outPath) outPath blocks)
      refine Keeps.bind (keeps_ofVerdict _) ?_
      intro blocks
      apply Keeps.bind
      · unfold createParent
        split
        · exact keeps_pure _
        · exact keeps_onFiles_within fun files next agree made => agree.createDirAll above made
      · intro _
        apply keeps_reconstructFile
        · exact above.trans (List.prefix_append ..)
        · exact above.trans (List.dropLast_prefix outPath)
        · exact uniqueTmpPath_ne _ _ _

theorem keeps_receiveFiles {base : FilePath} {entries : List SendFileEntry}
    (inside : ∀ entry ∈ entries, ∀ outPath, safeJoin root entry.relativePath = .ok outPath →
      base <+: outPath.dropLast)
    (streamed : ∀ body ∈ attempt.bodies, body ∈ pool) :
    Keeps (fun receiver => Within hashBlockBytes pool base initial inboxKept receiver.device)
      (receiveFiles hashBlockBytes attempt root fileIndex entries) := by
  induction entries generalizing fileIndex with
  | nil => exact keeps_pure _
  | cons entry rest induction =>
    apply (keeps_receiveFile (inside entry (.head _)) streamed).bind
    intro _
    exact induction fun other listed => inside other (.tail _ listed)

theorem inside_of_named (named : pathComponents entry.relativePath ≠ [])
    (joined : safeJoin root entry.relativePath = .ok outPath) : root <+: outPath.dropLast := by
  rw [safeJoin_eq_ok joined, List.dropLast_append_of_ne_nil named]
  exact List.prefix_append ..

end Keeping

/-! ## The history of a transfer -/

/-- The entry of the transfer has this manifest and this directory. -/
def HasRow (transferId : String) (manifest : SendManifest) (dir : Option String)
    (inbox : Inbox) : Prop :=
  ∃ row, inbox.getInbound transferId = some row ∧ row.manifest = manifest ∧ row.destinationDir = dir

variable {inbound : InboundTransfer}

section Histories

variable {hashBlockBytes : List UInt8 → List UInt8} {pool : Set (List UInt8)}
  {locate : String → FilePath} {initial : FileTree String (List UInt8)}
  {defaultInboxDir transferId : String} {manifest : SendManifest} {attempt : Attempt}

theorem HasRow.claim {inbox : Inbox} {dir : Option String} (requestedDir : String)
    (row : HasRow transferId manifest dir inbox) :
    HasRow transferId manifest (some (dir.getD requestedDir))
      (inbox.claimInboundDestination transferId requestedDir) := by
  rcases row with ⟨row, found, same, chosen⟩
  rw [Inbox.claimInboundDestination, found, Option.bind_some]
  cases dir with
  | some dir =>
    rw [chosen]
    exact ⟨row, found, same, chosen⟩
  | none =>
    rw [chosen]
    refine ⟨{ row with status := .inProgress, destinationDir := some requestedDir }, ?_, same, rfl⟩
    dsimp only
    rw [Inbox.getInbound_modifyInbound, found, Option.map_some,
      if_pos (Inbox.transferId_of_getInbound found)]

theorem HasRow.complete {inbox : Inbox} {dir : Option String}
    (row : HasRow transferId manifest dir inbox) :
    HasRow transferId manifest dir (inbox.markInboundCompleted transferId) := by
  rcases row with ⟨row, found, same, chosen⟩
  refine ⟨{ row with status := .completed }, ?_, same, chosen⟩
  rw [Inbox.markInboundCompleted, Inbox.getInbound_modifyInbound, found, Option.map_some,
    if_pos (Inbox.transferId_of_getInbound found)]
  rfl

/-- What holds of the device at any time: no directory is chosen yet and no file was written, or
every file that was written is in the one chosen. -/
def Reached (hashBlockBytes : List UInt8 → List UInt8) (pool : Set (List UInt8))
    (locate : String → FilePath) (initial : FileTree String (List UInt8)) (transferId : String)
    (manifest : SendManifest) (device : Device) : Prop :=
  (∃ dir, Within hashBlockBytes pool (locate dir) initial
    (HasRow transferId manifest (some dir)) device) ∨
  ((∀ hash block, device.blocks hash = some block → hashBlockBytes block = hash ∧ block ∈ pool) ∧
    device.files = initial ∧ HasRow transferId manifest none device.inbox)

theorem Reached.manifest_eq
    (reached : Reached hashBlockBytes pool locate initial transferId manifest device)
    (found : device.inbox.getInbound transferId = some inbound) : inbound.manifest = manifest := by
  have row : ∃ dir, HasRow transferId manifest dir device.inbox := by
    rcases reached with ⟨dir, within⟩ | ⟨_, _, row⟩
    · exact ⟨some dir, within.inbox⟩
    · exact ⟨none, row⟩
  rcases row with ⟨_, other, stored, same, _⟩
  rw [found] at stored
  cases stored
  exact same

theorem Reached.claim (requestedDir : String)
    (reached : Reached hashBlockBytes pool locate initial transferId manifest device) :
    Within hashBlockBytes pool (locate (device.claimedDir transferId requestedDir)) initial
      (HasRow transferId manifest (some (device.claimedDir transferId requestedDir)))
      (device.claim transferId requestedDir) := by
  rcases reached with ⟨dir, within⟩ | ⟨blocks, files, row⟩
  · have chosen : (device.inbox.getInbound transferId).bind (·.destinationDir) = some dir := by
      rcases within.inbox with ⟨row, found, _, chosen⟩
      rw [found, Option.bind_some, chosen]
    rw [Device.claimedDir, chosen]
    exact ⟨within.blocks, within.files, within.inbox.claim requestedDir⟩
  · have chosen : (device.inbox.getInbound transferId).bind (·.destinationDir) = none := by
      rcases row with ⟨row, found, _, chosen⟩
      rw [found, Option.bind_some, chosen]
    rw [Device.claimedDir, chosen]
    exact ⟨blocks, files ▸ FileTree.AgreeOutside.refl _ _, row.claim requestedDir⟩

theorem keeps_receiveInto {base : FilePath} {inboxKept : Inbox → Prop} {dir : String}
    (below : base <+: locate dir) (inside : ∀ entry ∈ inbound.manifest.files, ∀ outPath,
      safeJoin (locate dir) entry.relativePath = .ok outPath → base <+: outPath.dropLast)
    (streamed : ∀ body ∈ attempt.bodies, body ∈ pool)
    (complete : ∀ inbox, inboxKept inbox → inboxKept (inbox.markInboundCompleted transferId)) :
    Keeps (fun receiver => Within hashBlockBytes pool base initial inboxKept receiver.device)
      (receiveInto hashBlockBytes locate transferId attempt inbound dir) := by
  refine Keeps.bind (keeps_onFiles_within fun files next agree made =>
    agree.createDirAll below made) ?_
  intro _
  split
  · apply (keeps_receiveFiles inside streamed).bind
    intro _
    apply Keeps.bind
    · apply (keeps_effect _).bind
      intro _ receiver within
      exact ⟨within.blocks, within.files, complete receiver.device.inbox within.inbox⟩
    · intro _
      exact keeps_pure _
  · exact keeps_throw _

/-- A claim fails before it changes anything, or what follows starts from the claimed device. -/
theorem after_claimDestination {α : Type} (requestedDir : String) (rest : String → ReceiveM α)
    (receiver : Receiver) :
    (after (claimDestination transferId requestedDir >>= rest) receiver).device = receiver.device ∨
      ∃ faults, after (claimDestination transferId requestedDir >>= rest) receiver =
        after (rest (receiver.device.claimedDir transferId requestedDir))
          ⟨receiver.device.claim transferId requestedDir, faults⟩ := by
  cases took : effect receiver with
  | error failure reached =>
    left
    have ends := keeps_effect (fun device => device = receiver.device) receiver rfl
    rw [after_of_error took] at ends
    have failed : claimDestination transferId requestedDir receiver = .error failure reached := by
      rw [claimDestination, bind_apply, took]
    rw [after, bind_apply, failed]
    exact ends
  | ok done reached =>
    right
    refine ⟨reached.faults, ?_⟩
    have claimed : claimDestination transferId requestedDir receiver =
        .ok (reached.device.claimedDir transferId requestedDir)
          ⟨reached.device.claim transferId requestedDir, reached.faults⟩ := by
      rw [claimDestination, bind_apply, took]
      rfl
    rw [after, bind_apply, claimed, ← effect_eq_ok took]
    rfl

theorem keeps_receiveTransfer_of {kept : Device → Prop}
    (claimed : ∀ device faults inbound requestedDir, kept device →
      device.inbox.getInbound transferId = some inbound →
      kept (after (receiveInto hashBlockBytes locate transferId attempt inbound
          (device.claimedDir transferId requestedDir))
        ⟨device.claim transferId requestedDir, faults⟩).device) :
    Keeps (fun receiver => kept receiver.device)
      (receiveTransfer hashBlockBytes locate defaultInboxDir transferId attempt) := by
  apply Keeps.bind
  · intro receiver holds
    exact holds
  · intro _
    apply (keeps_effect _).bind
    intro _ receiver holds
    rw [after, bind_apply, get_apply]
    dsimp only
    cases found : receiver.device.inbox.getInbound transferId with
    | none => exact holds
    | some inbound =>
      change kept (after (claimDestination transferId
          (attempt.destinationDir.getD (joinPath defaultInboxDir transferId)) >>=
        receiveInto hashBlockBytes locate transferId attempt inbound) receiver).device
      rcases after_claimDestination _ _ receiver with unchanged | ⟨faults, same⟩
      · rw [unchanged]
        exact holds
      · rw [same]
        exact claimed receiver.device faults inbound _ holds found

theorem keeps_row (streamed : ∀ body ∈ attempt.bodies, body ∈ pool) :
    Keeps (fun receiver => Within hashBlockBytes pool [] initial
        (fun inbox => ∃ dir, HasRow transferId manifest dir inbox) receiver.device)
      (receiveTransfer hashBlockBytes locate defaultInboxDir transferId attempt) := by
  apply keeps_receiveTransfer_of
  intro device faults inbound requestedDir within found
  apply keeps_receiveInto List.nil_prefix (fun _ _ _ _ => List.nil_prefix) streamed
  · rintro inbox ⟨dir, row⟩
    exact ⟨dir, row.complete⟩
  · rcases within.inbox with ⟨dir, row⟩
    exact ⟨within.blocks, within.files, _, row.claim requestedDir⟩

theorem keeps_reached (named : ∀ entry ∈ manifest.files, pathComponents entry.relativePath ≠ [])
    (streamed : ∀ body ∈ attempt.bodies, body ∈ pool) :
    Keeps (fun receiver =>
        Reached hashBlockBytes pool locate initial transferId manifest receiver.device)
      (receiveTransfer hashBlockBytes locate defaultInboxDir transferId attempt) := by
  apply keeps_receiveTransfer_of
  intro device faults inbound requestedDir reached found
  rw [← reached.manifest_eq found] at named
  refine .inl ⟨_, keeps_receiveInto (List.prefix_refl _) ?_ streamed ?_ _
    (reached.claim requestedDir)⟩
  · intro entry listed outPath joined
    exact inside_of_named (named entry listed) joined
  · intro inbox row
    exact row.complete

end Histories

/-! ## Runs -/

/-- What happens on the device before the attempt that succeeds. -/
inductive ReceiveEvent where
  | tried (attempt : Attempt)
  | stored (block : List UInt8)

def ReceiveEvent.blocks : ReceiveEvent → List (List UInt8)
  | .tried attempt => attempt.bodies
  | .stored block => [block]

section Runs

variable (hashBlockBytes : List UInt8 → List UInt8) (locate : String → FilePath)
  (defaultInboxDir transferId : String)

/-- An attempt leaves what it did until it ended; another transfer only stores blocks. -/
def Device.step (device : Device) : ReceiveEvent → Device
  | .tried attempt => (after (receiveTransfer hashBlockBytes locate defaultInboxDir transferId
      attempt) ⟨device, []⟩).device
  | .stored block => device.put hashBlockBytes block

def Device.runAll (device : Device) (events : List ReceiveEvent) : Device :=
  events.foldl (Device.step hashBlockBytes locate defaultInboxDir transferId) device

/-- The files at the entries' destinations are what the manifest says, and nothing outside the
directory was written. -/
structure Completed (pool : Set (List UInt8)) (root : FilePath) (manifest : SendManifest)
    (initial files : FileTree String (List UInt8)) : Prop where
  received : ∀ entry ∈ manifest.files, ∃ outPath, ∃ blocks : List (List UInt8),
    safeJoin root entry.relativePath = .ok outPath ∧ (∀ block ∈ blocks, block ∈ pool) ∧
      blocks.map hashBlockBytes = entry.chunkHashes ∧
      files outPath = some (.file blocks.flatten) ∧ blocks.flatten.length = entry.size
  outside : FileTree.AgreeOutside root initial files

/-- The length of the block a hash names: of the one the store held before the call, else the size
at the first place in the manifest that names the hash. -/
def blockLength (before : List UInt8 → Option (List UInt8)) (files : List SendFileEntry)
    (hash : List UInt8) : Nat :=
  match before hash, firstSize files hash with
  | some block, _ => block.length
  | none, some (.ok size) => size
  | none, _ => 0

/-- The block a hash names: the one the store held before the call, else one the sender streams. -/
def namedBlock (before : List UInt8 → Option (List UInt8)) (attempt : Attempt)
    (hash : List UInt8) : Option (List UInt8) :=
  (before hash).or (attempt.bodies.find? fun body => decide (hashBlockBytes body = hash))

/-- The lengths of the blocks that an entry names add up to its size, and the last entry that
touches its destination goes there with the same bytes. -/
structure Consistent (root : FilePath) (attempt : Attempt) (manifest : SendManifest)
    (before : List UInt8 → Option (List UInt8)) : Prop where
  sizes : ∀ entry ∈ manifest.files,
    (entry.chunkHashes.map (blockLength before manifest.files)).sum = entry.size
  lasting : ∀ entry ∈ manifest.files, ∃ position last, manifest.files[position]? = some last ∧
    destinationOf root last = destinationOf root entry ∧
    bytesOf (namedBlock hashBlockBytes before attempt) last.chunkHashes =
      bytesOf (namedBlock hashBlockBytes before attempt) entry.chunkHashes ∧
    ∀ later other, position < later → manifest.files[later]? = some other →
      Untouched attempt root later other (destinationOf root entry)

end Runs

section Exactness

variable {hashBlockBytes : List UInt8 → List UInt8} {pool : Set (List UInt8)}
  {files : List SendFileEntry} {attempt : Attempt}
  {before blocks : List UInt8 → Option (List UInt8)} {hash : List UInt8}

theorem length_of_origins (origins : Origins hashBlockBytes files attempt.bodies before blocks)
    (held : (blocks hash).isSome) : ((blocks hash).getD []).length = blockLength before files hash := by
  rcases origins hash with same | ⟨absent, block, found, _, _, sized⟩
  · rw [same] at held ⊢
    rcases Option.isSome_iff_exists.mp held with ⟨block, found⟩
    rw [blockLength, found]
    rfl
  · rw [blockLength, absent, found, sized]
    rfl

theorem namedBlock_of_origins (free : Set.InjOn hashBlockBytes pool)
    (streamed : ∀ body ∈ attempt.bodies, body ∈ pool)
    (origins : Origins hashBlockBytes files attempt.bodies before blocks)
    (held : (blocks hash).isSome) : namedBlock hashBlockBytes before attempt hash = blocks hash := by
  rcases origins hash with same | ⟨absent, block, found, hashed, sent, _⟩
  · rw [same] at held ⊢
    rw [namedBlock, Option.or_of_isSome held]
  · rw [namedBlock, absent, Option.none_or, found]
    have some_ : (attempt.bodies.find? fun body => decide (hashBlockBytes body = hash)).isSome := by
      rw [List.find?_isSome]
      exact ⟨block, sent, decide_eq_true hashed⟩
    rcases Option.isSome_iff_exists.mp some_ with ⟨first, at_⟩
    have firstHashed : hashBlockBytes first = hash := by simpa using List.find?_some at_
    rw [at_, free (streamed first (List.mem_of_find?_eq_some at_)) (streamed block sent)
      (firstHashed.trans hashed.symm)]

theorem blocks_eq_of_hashes (free : Set.InjOn hashBlockBytes pool)
    (addressed : ∀ hash block, blocks hash = some block →
      hashBlockBytes block = hash ∧ block ∈ pool)
    {hashes : List (List UInt8)} (held : ∀ hash ∈ hashes, (blocks hash).isSome)
    {others : List (List UInt8)} (pooled : ∀ block ∈ others, block ∈ pool)
    (hashed : others.map hashBlockBytes = hashes) : others.flatten = bytesOf blocks hashes := by
  rw [bytesOf, List.flatMap_def, ← hashed, List.map_map]
  congr 1
  rw [← List.map_id others, List.map_map]
  apply List.map_congr_left
  intro block member
  have listed : hashBlockBytes block ∈ hashes := hashed ▸ List.mem_map_of_mem member
  rcases Option.isSome_iff_exists.mp (held _ listed) with ⟨stored, found⟩
  rcases addressed _ _ found with ⟨same, inPool⟩
  simp only [id_eq, Function.comp_apply, found, Option.getD_some]
  exact free (pooled block member) inPool same.symm

theorem hashes_of_blocks (addressed : ∀ hash block, blocks hash = some block →
      hashBlockBytes block = hash ∧ block ∈ pool)
    {hashes : List (List UInt8)} (held : ∀ hash ∈ hashes, (blocks hash).isSome) :
    ∃ others : List (List UInt8), (∀ block ∈ others, block ∈ pool) ∧
      others.map hashBlockBytes = hashes ∧ others.flatten = bytesOf blocks hashes := by
  have each : ∀ hash ∈ hashes, hashBlockBytes ((blocks hash).getD []) = hash ∧
      (blocks hash).getD [] ∈ pool := by
    intro hash listed
    rcases Option.isSome_iff_exists.mp (held hash listed) with ⟨stored, found⟩
    rw [found]
    exact addressed hash stored found
  refine ⟨hashes.map fun hash => (blocks hash).getD [], ?_, ?_, ?_⟩
  · intro block member
    rcases List.mem_map.mp member with ⟨hash, listed, rfl⟩
    exact (each hash listed).2
  · rw [List.map_map]
    conv_rhs => rw [← List.map_id hashes]
    apply List.map_congr_left
    intro hash listed
    exact (each hash listed).1
  · rw [bytesOf, List.flatMap_def]

variable {locate : String → FilePath} {defaultInboxDir transferId : String}
  {events : List ReceiveEvent}

theorem Device.runAll_keeps {kept : Device → Prop} (holds : kept device)
    (tried : ∀ attempt, ReceiveEvent.tried attempt ∈ events →
      Keeps (fun receiver => kept receiver.device)
        (receiveTransfer hashBlockBytes locate defaultInboxDir transferId attempt))
    (stored : ∀ block, ReceiveEvent.stored block ∈ events → ∀ device, kept device →
      kept (device.put hashBlockBytes block)) :
    kept (device.runAll hashBlockBytes locate defaultInboxDir transferId events) := by
  induction events generalizing device with
  | nil => exact holds
  | cons event events induction =>
    rw [runAll, List.foldl_cons]
    refine induction ?_ (fun attempt member => tried attempt (.tail _ member))
      (fun block member => stored block (.tail _ member))
    cases event with
    | tried attempt => exact tried attempt (.head _) ⟨device, []⟩ holds
    | stored block => exact stored block (.head _) device holds

variable (locate defaultInboxDir) in
theorem runAll_row {manifest : SendManifest}
    (addressed : ∀ hash block, device.blocks hash = some block →
      hashBlockBytes block = hash ∧ block ∈ pool)
    (row : ∃ dir, HasRow transferId manifest dir device.inbox)
    (pooled : ∀ event ∈ events, ∀ block ∈ event.blocks, block ∈ pool) :
    Within hashBlockBytes pool [] device.files
      (fun inbox => ∃ dir, HasRow transferId manifest dir inbox)
      (device.runAll hashBlockBytes locate defaultInboxDir transferId events) := by
  apply Device.runAll_keeps ⟨addressed, FileTree.AgreeOutside.refl _ _, row⟩
  · intro attempt member
    exact keeps_row fun body listed => pooled _ member body listed
  · intro block member device within
    exact within.put (pooled _ member block (.head _))

theorem Reached.put {initial : FileTree String (List UInt8)} {manifest : SendManifest}
    {device : Device} {block : List UInt8}
    (reached : Reached hashBlockBytes pool locate initial transferId manifest device)
    (member : block ∈ pool) :
    Reached hashBlockBytes pool locate initial transferId manifest
      (device.put hashBlockBytes block) := by
  rcases reached with ⟨dir, within⟩ | ⟨blocks, files, row⟩
  · exact .inl ⟨dir, within.put member⟩
  · have grew := @Device.grew_put hashBlockBytes device block
    exact .inr ⟨put_addressed blocks member, grew.files.trans files, grew.inbox ▸ row⟩

variable (locate defaultInboxDir) in
theorem reached_runAll (addressed : ∀ hash block, device.blocks hash = some block →
      hashBlockBytes block = hash ∧ block ∈ pool)
    (offered : device.inbox.getInbound transferId = some inbound)
    (named : ∀ entry ∈ inbound.manifest.files, pathComponents entry.relativePath ≠ [])
    (pooled : ∀ event ∈ events, ∀ block ∈ event.blocks, block ∈ pool) :
    Reached hashBlockBytes pool locate device.files transferId inbound.manifest
      (device.runAll hashBlockBytes locate defaultInboxDir transferId events) := by
  apply Device.runAll_keeps
  · cases chosen : inbound.destinationDir with
    | none => exact .inr ⟨addressed, rfl, inbound, offered, rfl, chosen⟩
    | some dir =>
      exact .inl ⟨dir, addressed, FileTree.AgreeOutside.refl _ _, inbound, offered, rfl, chosen⟩
  · intro attempt member
    exact keeps_reached named fun body listed => pooled _ member body listed
  · intro block member device reached
    exact reached.put (pooled _ member block (.head _))

/-- An entry is received when its destination has the bytes its hashes name, in its size. -/
theorem received_iff (free : Set.InjOn hashBlockBytes pool)
    (addressed : ∀ hash block, blocks hash = some block →
      hashBlockBytes block = hash ∧ block ∈ pool)
    {root : FilePath} {entry : SendFileEntry} {tree : FileTree String (List UInt8)}
    (joined : safeJoin root entry.relativePath = .ok (destinationOf root entry))
    (held : ∀ hash ∈ entry.chunkHashes, (blocks hash).isSome) :
    (∃ outPath, ∃ others : List (List UInt8), safeJoin root entry.relativePath = .ok outPath ∧
      (∀ block ∈ others, block ∈ pool) ∧ others.map hashBlockBytes = entry.chunkHashes ∧
      tree outPath = some (.file others.flatten) ∧ others.flatten.length = entry.size) ↔
    tree.contentAt (destinationOf root entry) = some (bytesOf blocks entry.chunkHashes) ∧
      (bytesOf blocks entry.chunkHashes).length = entry.size := by
  constructor
  · rintro ⟨outPath, others, path, pooled, hashed, stands, sized⟩
    rw [joined] at path
    cases path
    rw [blocks_eq_of_hashes free addressed held pooled hashed] at stands sized
    exact ⟨FileTree.contentAt_eq_some_iff.mpr stands, sized⟩
  · rintro ⟨stands, sized⟩
    rcases hashes_of_blocks addressed held with ⟨others, pooled, hashed, same⟩
    rw [← same] at stands sized
    exact ⟨_, others, joined, pooled, hashed, FileTree.contentAt_eq_some_iff.mp stands, sized⟩

theorem contentAt_destination_iff {root : FilePath} {bytes : SendFileEntry → List UInt8}
    {contents : FilePath → Option (List UInt8)} {entry : SendFileEntry} (listed : entry ∈ files) :
    touchAll attempt root bytes 0 files contents (destinationOf root entry) = some (bytes entry) ↔
      ∃ position last, files[position]? = some last ∧
        destinationOf root last = destinationOf root entry ∧ bytes last = bytes entry ∧
        ∀ later other, position < later → files[later]? = some other →
          Untouched attempt root later other (destinationOf root entry) := by
  rw [touchAll_eq_some_iff]
  simp only [Nat.zero_add]
  constructor
  · rintro (decided | ⟨_, untouched⟩)
    · exact decided
    · rcases List.mem_iff_getElem?.mp listed with ⟨position, found⟩
      exact absurd rfl (untouched position entry found).1
  · exact .inl

/-- What the receive of all files leaves is what the manifest says exactly when the manifest is
consistent with the blocks there were. -/
theorem AllLanded.received_iff_consistent (free : Set.InjOn hashBlockBytes pool)
    (streamed : ∀ body ∈ attempt.bodies, body ∈ pool) {root : FilePath} {manifest : SendManifest}
    {started ended : Device}
    (landed : AllLanded hashBlockBytes manifest.files attempt root before 0 manifest.files started
      ended)
    (addressed : ∀ hash block, ended.blocks hash = some block →
      hashBlockBytes block = hash ∧ block ∈ pool) :
    (∀ entry ∈ manifest.files, ∃ outPath, ∃ others : List (List UInt8),
      safeJoin root entry.relativePath = .ok outPath ∧ (∀ block ∈ others, block ∈ pool) ∧
      others.map hashBlockBytes = entry.chunkHashes ∧
      ended.files outPath = some (.file others.flatten) ∧ others.flatten.length = entry.size) ↔
    Consistent hashBlockBytes root attempt manifest before := by
  have lengths : ∀ entry ∈ manifest.files, (bytesOf ended.blocks entry.chunkHashes).length =
      (entry.chunkHashes.map (blockLength before manifest.files)).sum := by
    intro entry listed
    rw [bytesOf, List.length_flatMap]
    congr 1
    apply List.map_congr_left
    intro hash named
    exact length_of_origins landed.origins (landed.held entry listed hash named)
  have bytes : ∀ entry ∈ manifest.files, bytesOf ended.blocks entry.chunkHashes =
      bytesOf (namedBlock hashBlockBytes before attempt) entry.chunkHashes := by
    intro entry listed
    apply bytesOf_congr
    intro hash named
    exact (namedBlock_of_origins free streamed landed.origins
      (landed.held entry listed hash named)).symm
  have each : ∀ entry ∈ manifest.files, _ := fun entry listed =>
    @received_iff hashBlockBytes pool ended.blocks free addressed root entry ended.files
      (landed.joined entry listed) (landed.held entry listed)
  have settled := fun entry (listed : entry ∈ manifest.files) =>
    @contentAt_destination_iff manifest.files attempt root
      (fun entry => bytesOf ended.blocks entry.chunkHashes) started.files.contentAt entry listed
  constructor
  · intro received
    refine ⟨?_, ?_⟩
    · intro entry listed
      rw [← lengths entry listed]
      exact ((each entry listed).mp (received entry listed)).2
    · intro entry listed
      have stands := ((each entry listed).mp (received entry listed)).1
      rw [landed.contents] at stands
      rcases (settled entry listed).mp stands with ⟨position, last, found, goes, same, untouched⟩
      refine ⟨position, last, found, goes, ?_, untouched⟩
      rw [← bytes entry listed, ← bytes last (List.mem_of_getElem? found)]
      exact same
  · intro consistent entry listed
    apply (each entry listed).mpr
    refine ⟨?_, (lengths entry listed).trans (consistent.sizes entry listed)⟩
    rw [landed.contents]
    apply (settled entry listed).mpr
    rcases consistent.lasting entry listed with ⟨position, last, found, goes, same, untouched⟩
    refine ⟨position, last, found, goes, ?_, untouched⟩
    rw [bytes entry listed, bytes last (List.mem_of_getElem? found)]
    exact same

/-- A receive that returns has completed exactly when the blocks of each entry add up to its size
and the last entry to touch an entry's destination brings the same bytes there. -/
theorem receive_completed_iff (free : Set.InjOn hashBlockBytes pool) {device : Device}
    {inbound : InboundTransfer} {events : List ReceiveEvent} {outcome : ReceiveOutcome}
    {last : Receiver}
    (addressed : ∀ hash block, device.blocks hash = some block →
      hashBlockBytes block = hash ∧ block ∈ pool)
    (offered : device.inbox.getInbound transferId = some inbound)
    (pooled : ∀ event ∈ events, ∀ block ∈ event.blocks, block ∈ pool)
    (streamed : ∀ body ∈ attempt.bodies, body ∈ pool)
    (ran : receiveTransfer hashBlockBytes locate defaultInboxDir transferId attempt
      ⟨device.runAll hashBlockBytes locate defaultInboxDir transferId events, []⟩ =
        .ok outcome last) :
    Completed hashBlockBytes pool (locate outcome.destinationDir) inbound.manifest device.files
        last.device.files ↔
      Consistent hashBlockBytes (locate outcome.destinationDir) attempt inbound.manifest
        (device.runAll hashBlockBytes locate defaultInboxDir transferId events).blocks := by
  have rowKept := runAll_row locate defaultInboxDir addressed
    ⟨_, inbound, offered, rfl, rfl⟩ pooled
  have lastAddressed := ((keeps_row streamed).ok ran rowKept).blocks
  rcases receiveTransfer_eq_ok ran with ⟨current, claimed, requestedDir, found, claimedDevice, into⟩
  have sameManifest : current.manifest = inbound.manifest := by
    rcases rowKept.inbox with ⟨_, row, stored, same, _⟩
    rw [found] at stored
    cases stored
    exact same
  rcases receiveInto_eq_ok into with ⟨dir, started, ended, stands, landed, lastBlocks, lastFiles⟩
  rw [← dir] at stands landed
  rw [claimedDevice, sameManifest] at landed
  rw [lastBlocks] at lastAddressed
  -- an entry without a name would be renamed onto the directory itself
  have named : ∀ entry ∈ inbound.manifest.files, pathComponents entry.relativePath ≠ [] := by
    intro entry listed empty
    apply landed.inside stands entry listed
    rw [safeJoin_eq_ok (landed.joined entry listed), empty, List.append_nil]
  have outside : FileTree.AgreeOutside (locate outcome.destinationDir) device.files
      last.device.files := by
    have reached := (reached_runAll locate defaultInboxDir addressed offered named pooled).claim requestedDir
    rw [← claimedDevice, ← dir] at reached
    rw [← dir] at into
    refine ((keeps_receiveInto (List.prefix_refl _) ?_ streamed ?_).ok into reached).files
    · intro entry listed outPath joined
      rw [sameManifest] at listed
      exact inside_of_named (named entry listed) joined
    · intro inbox row
      exact row.complete
  have exact_ := landed.received_iff_consistent free streamed lastAddressed
  rw [← lastFiles] at exact_
  constructor
  · intro completed
    exact exact_.mp completed.received
  · intro consistent
    exact ⟨exact_.mpr consistent, outside⟩

end Exactness

/-! ## Two transfers -/

namespace ReceiveSample

def sampleHash (block : List UInt8) : List UInt8 := (block ++ List.replicate 32 0).take 32

def entryOf (relativePath : String) (size : Nat) : SendFileEntry :=
  ⟨relativePath, size, 4, [sampleHash [7]]⟩

def manifestOf (files : List SendFileEntry) : SendManifest :=
  ⟨"t1", files, (files.map (·.size)).sum, 0⟩

def deviceOf (files : List SendFileEntry) : Device where
  inbox := ⟨[⟨"t1", "phone", manifestOf files, .pending, none, 0⟩],
    List.nodup_singleton _⟩
  blocks _ := none
  files _ := none

/-- The sender streams the block `[7]` for the first file. -/
def attempt : Attempt := ⟨none, true, 12, id, [[.header 0 1 true [7]]], []⟩

def receive : ReceiveM ReceiveOutcome :=
  receiveTransfer sampleHash (fun dir => [dir]) "inbox" "t1" attempt

end ReceiveSample

open ReceiveSample

/-- A first attempt that meets a closed stream, then one that succeeds. -/
theorem receive_completed_retried :
    Completed sampleHash {[7]} ["inbox/t1"] (manifestOf [entryOf "a" 1]) (fun _ => none)
      (commit receive ⟨(deviceOf [entryOf "a" 1]).runAll sampleHash (fun dir => [dir]) "inbox" "t1"
        [.tried { attempt with answers := [] }], []⟩).device.files := by
  have returned : outcome receive ⟨(deviceOf [entryOf "a" 1]).runAll sampleHash (fun dir => [dir])
      "inbox" "t1" [.tried { attempt with answers := [] }], []⟩ =
      .ok ⟨"inbox/t1", ["a"], 1⟩ := by decide
  have ran := outcome_eq_ok_iff.mp returned
  refine (receive_completed_iff (Set.injOn_singleton ..) ?_ rfl ?_ ?_ ran).mpr ⟨?_, ?_⟩
  · intro hash block found
    cases found
  · decide
  · decide
  · decide
  · intro entry listed
    refine ⟨0, entry, ?_, rfl, rfl, ?_⟩
    · rw [List.mem_singleton.mp listed]
      rfl
    · intro later other after found
      cases later with
      | zero => omega
      | succ later => cases found

/-- Two entries name one chunk, of one byte at the first and of two at the second. The second is
not pulled, and its file is a byte short. -/
theorem shared_chunk_received_short :
    validateOfferedManifest (manifestOf [entryOf "a" 1, entryOf "b" 2]) = .ok () ∧
      outcome receive ⟨deviceOf [entryOf "a" 1, entryOf "b" 2], []⟩ =
        .ok ⟨"inbox/t1", ["a", "b"], 3⟩ ∧
      ¬ Completed sampleHash {[7]} ["inbox/t1"] (manifestOf [entryOf "a" 1, entryOf "b" 2])
        (fun _ => none)
        (commit receive ⟨deviceOf [entryOf "a" 1, entryOf "b" 2], []⟩).device.files := by
  refine ⟨by decide, by decide, ?_⟩
  intro completed
  rcases completed.received (entryOf "b" 2) (by decide) with
    ⟨outPath, blocks, joined, _, _, stands, sized⟩
  have path : outPath = ["inbox/t1", "b"] := by
    have evaluated : safeJoin ["inbox/t1"] (entryOf "b" 2).relativePath =
        .ok ["inbox/t1", "b"] := by decide
    rw [evaluated] at joined
    cases joined
    rfl
  have short : (commit receive ⟨deviceOf [entryOf "a" 1, entryOf "b" 2], []⟩).device.files.contentAt
      ["inbox/t1", "b"] = some [7] := by decide
  rw [path, ← FileTree.contentAt_eq_some_iff, short] at stands
  rw [← Option.some.inj stands] at sized
  exact absurd sized (by decide)

end Yadorilink.Send
