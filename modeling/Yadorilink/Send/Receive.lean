import Yadorilink.Foundation.Effects
import Yadorilink.Foundation.FileTree
import Yadorilink.Send.Inbox

/-! Receiving an offered transfer: the chunks that are missing are pulled from the sender, and
each file is put together from the block store, file after file, into one directory. -/

namespace Yadorilink.Send

open Effects Transaction

abbrev FilePath := List String

/-! ## The receiver -/

inductive SendError where
  | unknownTransfer (transferId : String)
  | noKnownAddress (deviceId : String)
  | protocol (message : String)
  | pullRejected (reason : String)
  | chunkHashMismatch (fileIndex chunkIndex : Nat)
  | blockNotFound (hash : List UInt8)
  | io
  | crashed
deriving DecidableEq

/-- What an effect may meet: a failure the code sees, or the end of the process. -/
inductive Fault where
  | failed
  | crashed
deriving DecidableEq

/-- What lasts beyond a process: the inbox, the blocks by their hash, and the file system. -/
structure Device where
  inbox : Inbox
  blocks : List UInt8 → Option (List UInt8)
  files : FileTree String (List UInt8)

/-- The device, and what the effects still to come will meet. -/
structure Receiver where
  device : Device
  faults : List (Option Fault)

abbrev ReceiveM := EStateM SendError Receiver

/-- An effect takes place, unless its fault says otherwise. -/
def effect : ReceiveM Unit := do
  let receiver ← get
  match receiver.faults with
  | [] => pure ()
  | met :: rest =>
    set { receiver with faults := rest }
    match met with
    | none => pure ()
    | some .failed => throw .io
    | some .crashed => throw .crashed

def onFiles (change : FileTree String (List UInt8) → Option (FileTree String (List UInt8))) :
    ReceiveM Unit := do
  effect
  let receiver ← get
  match change receiver.device.files with
  | some files => set { receiver with device := { receiver.device with files } }
  | none => throw .io

def getBlock (hash : List UInt8) : ReceiveM (List UInt8) := do
  effect
  match (← get).device.blocks hash with
  | some block => pure block
  | none => throw (.blockNotFound hash)

/-- A block that is there already is not written again. -/
def Device.put (hashBlockBytes : List UInt8 → List UInt8) (device : Device) (block : List UInt8) :
    Device :=
  if (device.blocks (hashBlockBytes block)).isSome then device
  else { device with blocks := Function.update device.blocks (hashBlockBytes block) (some block) }

def putBlock (hashBlockBytes : List UInt8 → List UInt8) (block : List UInt8) : ReceiveM Unit := do
  effect
  modify fun receiver => { receiver with device := receiver.device.put hashBlockBytes block }

/-! ## Paths -/

/-- The names of a relative path, without its empty and `.` components. -/
def pathComponents (relative : String) : List String :=
  ((relative.toList.splitOn '/').map String.ofList).filter fun part => part ≠ "" ∧ part ≠ "."

/-- Refuses a path that starts at the root or goes up. -/
def safeJoin (root : FilePath) (relative : String) : Except SendError FilePath :=
  if relative.toList.head? = some '/' ∨ ".." ∈ pathComponents relative then
    .error (.protocol ("manifest path escapes the destination directory: " ++ relative))
  else .ok (root ++ pathComponents relative)

/-- `PathBuf::join`: an absolute path takes the place of the directory. -/
def joinPath (dir name : String) : String :=
  if name.toList.head? = some '/' ∨ dir = "" then name
  else if dir.toList.getLast? = some '/' then dir ++ name
  else dir ++ "/" ++ name

/-- `unique_tmp_path`: beside the path, under the process and the number its counter gave. -/
def uniqueTmpPath (processId number : Nat) (path : FilePath) : FilePath :=
  path.dropLast ++ [path.getLast?.getD "" ++
    (".yadorilink-tmp." ++ toString processId ++ "." ++ toString number)]

/-! ## Putting a file together -/

structure BlockInfo where
  hash : List UInt8
  offset : Nat
  size : Nat

/-- Best effort, and not at all when the process is gone. -/
def discardTempFile (failure : SendError) (tmpPath : FilePath) : ReceiveM Unit :=
  if failure = .crashed then pure ()
  else
    tryCatch
      (do
        effect
        modify fun receiver =>
          { receiver with device := { receiver.device with
              files := receiver.device.files.remove tmpPath } })
      fun _ => pure ()

def requireParentDirectory (outPath : FilePath) : ReceiveM Unit := do
  effect
  if outPath ≠ [] ∧ ¬ (← get).device.files.isDir outPath.dropLast then throw .io

/-- Each block is read from the store by its hash; the size it is said to have is not looked at. -/
def writeBlocks (tmpPath : FilePath) : List BlockInfo → ReceiveM Unit
  | [] => pure ()
  | block :: rest => do
      let data ← getBlock block.hash
      onFiles fun files =>
        (files.contentAt tmpPath).bind fun written => files.put tmpPath (written ++ data)
      writeBlocks tmpPath rest

def reconstructFileToTemp (tmpPath outPath : FilePath) (blocks : List BlockInfo) :
    ReceiveM Unit := do
  requireParentDirectory outPath
  tryCatch
    (do
      onFiles fun files => files.put tmpPath []
      writeBlocks tmpPath blocks
      effect)
    fun failure => do
      discardTempFile failure tmpPath
      throw failure

def persistReconstructedFile (tmpPath outPath : FilePath) : ReceiveM Unit :=
  tryCatch
    (do
      onFiles fun files => files.rename tmpPath outPath
      effect)
    fun failure => do
      discardTempFile failure tmpPath
      throw failure

def reconstructFile (tmpPath outPath : FilePath) (blocks : List BlockInfo) : ReceiveM Unit := do
  reconstructFileToTemp tmpPath outPath blocks
  persistReconstructedFile tmpPath outPath

/-! ## Pulling -/

/-- A message of a chunk stream; the body is what follows a header. -/
inductive ChunkStreamMessage where
  | rejected (reason : String)
  | header (chunkIndex size : Nat) (lastChunk : Bool) (body : List UInt8)
  | empty

/-- The first chunk the store lacks, as a 32-bit index. -/
def firstMissingChunk (chunkHashes : List (List UInt8)) : ReceiveM (Option Nat) := do
  effect
  let blocks := (← get).device.blocks
  pure ((chunkHashes.findIdx? fun hash => (blocks hash).isNone).map (· % 2 ^ 32))

def ofVerdict {α : Type} : Except String α → ReceiveM α
  | .ok value => pure value
  | .error message => throw (.protocol message)

def ofResult {α : Type} : Except SendError α → ReceiveM α
  | .ok value => pure value
  | .error failure => throw failure

section Receiving

variable (hashBlockBytes : List UInt8 → List UInt8)

/-- A chunk is checked for its index, its size and its hash before it is stored. -/
def receiveChunk (fileIndex : Nat) (entry : SendFileEntry) (next chunkIndex size : Nat)
    (body : List UInt8) : ReceiveM Unit :=
  if chunkIndex ≠ next then
    throw (.protocol ("file " ++ toString fileIndex ++ ": expected chunk index " ++
      toString next ++ ", peer sent " ++ toString chunkIndex))
  else do
    let expectedSize ← ofVerdict (chunkByteSize entry chunkIndex)
    if size ≠ expectedSize then
      throw (.protocol ("file " ++ toString fileIndex ++ " chunk " ++ toString chunkIndex ++
        ": expected " ++ toString expectedSize ++ " bytes, peer declared " ++ toString size))
    -- the body is read to its declared size, or the stream ends before it
    else if body.length ≠ size then throw .io
    else if entry.chunkHashes[chunkIndex]? ≠ some (hashBlockBytes body) then
      throw (.chunkHashMismatch fileIndex chunkIndex)
    else putBlock hashBlockBytes body

def pullChunks (fileIndex : Nat) (entry : SendFileEntry) :
    Nat → List ChunkStreamMessage → ReceiveM Unit
  | next, stream =>
    if next < entry.chunkHashes.length % 2 ^ 32 then
      match stream with
      | [] => throw .io
      | .rejected reason :: _ => throw (.pullRejected reason)
      | .empty :: _ => throw (.protocol "empty chunk stream message")
      | .header chunkIndex size lastChunk body :: rest => do
          receiveChunk hashBlockBytes fileIndex entry next chunkIndex size body
          if lastChunk then pure ()
          else pullChunks fileIndex entry (next + 1) rest
    else pure ()

/-- The dial and the request, then the chunks as they come. -/
def pullFile (fileIndex : Nat) (entry : SendFileEntry) (startChunkIndex : Nat)
    (stream : List ChunkStreamMessage) : ReceiveM Unit := do
  effect
  pullChunks hashBlockBytes fileIndex entry startChunkIndex stream

/-! ## A receive -/

/-- One call of `receive_transfer`: the directory asked for, whether the sender's address is
known, the numbers its temporary files get, what the sender streams for each file, and what its
effects meet. -/
structure Attempt where
  destinationDir : Option String
  senderKnown : Bool
  processId : Nat
  tmpNumber : Nat → Nat
  answers : List (List ChunkStreamMessage)
  faults : List (Option Fault)

def Attempt.tmpPath (attempt : Attempt) (fileIndex : Nat) (outPath : FilePath) : FilePath :=
  uniqueTmpPath attempt.processId (attempt.tmpNumber fileIndex) outPath

def blockInfo (entry : SendFileEntry) (place : List UInt8 × Nat) : Except String BlockInfo := do
  let size ← chunkByteSize entry place.2
  pure ⟨place.1, place.2 * entry.chunkSize, size⟩

def blockInfos (entry : SendFileEntry) : Except String (List BlockInfo) :=
  entry.chunkHashes.zipIdx.mapM (blockInfo entry)

/-- Pulls the file from its first missing chunk on, if it has one. -/
def pullMissing (fileIndex : Nat) (entry : SendFileEntry) (stream : List ChunkStreamMessage) :
    ReceiveM Unit := do
  match ← firstMissingChunk entry.chunkHashes with
  | some startChunkIndex => pullFile hashBlockBytes fileIndex entry startChunkIndex stream
  | none => pure ()

def createParent (outPath : FilePath) : ReceiveM Unit :=
  if outPath = [] then pure ()
  else onFiles fun files => files.createDirAll outPath.dropLast

def receiveFile (attempt : Attempt) (root : FilePath) (fileIndex : Nat) (entry : SendFileEntry) :
    ReceiveM Unit := do
  pullMissing hashBlockBytes (fileIndex % 2 ^ 32) entry (attempt.answers[fileIndex]?.getD [])
  let outPath ← ofResult (safeJoin root entry.relativePath)
  let blocks ← ofVerdict (blockInfos entry)
  createParent outPath
  reconstructFile (attempt.tmpPath fileIndex outPath) outPath blocks

def receiveFiles (attempt : Attempt) (root : FilePath) : Nat → List SendFileEntry → ReceiveM Unit
  | _, [] => pure ()
  | fileIndex, entry :: rest => do
      receiveFile hashBlockBytes attempt root fileIndex entry
      receiveFiles attempt root (fileIndex + 1) rest

structure ReceiveOutcome where
  destinationDir : String
  filesReceived : List String
  bytesReceived : Nat
deriving DecidableEq

/-- The directory a claim answers: the one chosen before, if there is one. -/
def Device.claimedDir (device : Device) (transferId requestedDir : String) : String :=
  ((device.inbox.getInbound transferId).bind (·.destinationDir)).getD requestedDir

def Device.claim (device : Device) (transferId requestedDir : String) : Device :=
  { device with inbox := device.inbox.claimInboundDestination transferId requestedDir }

/-- `claim_inbound_destination`, with the directory it answers. -/
def claimDestination (transferId requestedDir : String) : ReceiveM String := do
  effect
  let receiver ← get
  set { receiver with device := receiver.device.claim transferId requestedDir }
  pure (receiver.device.claimedDir transferId requestedDir)

def completeTransfer (transferId : String) : ReceiveM Unit := do
  effect
  modify fun receiver => { receiver with device := { receiver.device with
    inbox := receiver.device.inbox.markInboundCompleted transferId } }

/-- The receive of an entry of the inbox into its directory. `locate` is the place in the file
system that the path of a directory names. -/
def receiveInto (locate : String → FilePath) (transferId : String) (attempt : Attempt)
    (inbound : InboundTransfer) (destinationDir : String) : ReceiveM ReceiveOutcome := do
  onFiles fun files => files.createDirAll (locate destinationDir)
  if attempt.senderKnown then
    receiveFiles hashBlockBytes attempt (locate destinationDir) 0 inbound.manifest.files
    completeTransfer transferId
    pure ⟨destinationDir, inbound.manifest.files.map (·.relativePath),
      (inbound.manifest.files.map (·.size)).sum⟩
  else throw (.noKnownAddress inbound.senderDeviceId)

def receiveTransfer (locate : String → FilePath) (defaultInboxDir transferId : String)
    (attempt : Attempt) : ReceiveM ReceiveOutcome := do
  modify fun receiver => { receiver with faults := attempt.faults }
  effect
  match (← get).device.inbox.getInbound transferId with
  | none => throw (.unknownTransfer transferId)
  | some inbound => do
      let destinationDir ← claimDestination transferId
        (attempt.destinationDir.getD (joinPath defaultInboxDir transferId))
      receiveInto hashBlockBytes locate transferId attempt inbound destinationDir

end Receiving

end Yadorilink.Send
