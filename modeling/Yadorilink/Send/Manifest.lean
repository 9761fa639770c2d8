import Mathlib

/-! The manifest of an offered transfer: what files it carries, in chunks of what size, with the
hash of each chunk. -/

namespace Yadorilink.Send

structure SendFileEntry where
  relativePath : String
  size : Nat
  chunkSize : Nat
  chunkHashes : List (List UInt8)
deriving DecidableEq

structure SendManifest where
  transferId : String
  files : List SendFileEntry
  totalSize : Nat
  offeredAtUnixNanos : Int
deriving DecidableEq

def maxBlockSizeBytes : Nat := 16 * 1024 * 1024

def chunkHashLen : Nat := 32

/-- How many chunks the entry's bytes take: the division rounds up. -/
def SendFileEntry.expectedChunks (entry : SendFileEntry) : Nat :=
  (entry.size + entry.chunkSize - 1) / entry.chunkSize

def validateOfferedEntry (entry : SendFileEntry) : Except String Unit :=
  if entry.chunkSize = 0 ∨ entry.chunkSize > maxBlockSizeBytes then
    .error (entry.relativePath ++ ": chunk size " ++ toString entry.chunkSize ++
      " is outside 1..=" ++ toString maxBlockSizeBytes)
  else if entry.chunkHashes.length ≠ entry.expectedChunks then
    .error (entry.relativePath ++ ": " ++ toString entry.chunkHashes.length ++
      " chunk hashes for " ++ toString entry.size ++ " bytes in chunks of " ++
      toString entry.chunkSize ++ ", expected " ++ toString entry.expectedChunks)
  else if entry.chunkHashes.any fun hash => hash.length ≠ chunkHashLen then
    .error (entry.relativePath ++ ": a chunk hash is not " ++ toString chunkHashLen ++ " bytes")
  else .ok ()

/-- The entry is checked, and its size added to a 64-bit total. -/
def addOfferedEntry (total : Nat) (entry : SendFileEntry) : Except String Nat := do
  validateOfferedEntry entry
  if total + entry.size < 2 ^ 64 then .ok (total + entry.size)
  else .error "the file sizes overflow the total"

def validateOfferedManifest (manifest : SendManifest) : Except String Unit := do
  let total ← manifest.files.foldlM addOfferedEntry 0
  if total ≠ manifest.totalSize then
    .error ("total size " ++ toString manifest.totalSize ++ " does not match the files' " ++
      toString total ++ " bytes")
  else .ok ()

/-- The size of one chunk: `chunkSize`, but for the last, which is what remains. -/
def chunkByteSize (entry : SendFileEntry) (chunkIndex : Nat) : Except String Nat :=
  let numChunks := entry.chunkHashes.length
  if chunkIndex ≥ numChunks then
    .error ("chunk index " ++ toString chunkIndex ++ " out of range for " ++ toString numChunks ++
      " chunks")
  else if chunkIndex + 1 < numChunks then .ok entry.chunkSize
  else
    let fullChunks := min ((numChunks - 1) * entry.chunkSize) (2 ^ 64 - 1)
    if entry.size - fullChunks < 2 ^ 32 then .ok (entry.size - fullChunks)
    else .error ("final chunk of " ++ toString entry.size ++ " bytes does not fit a chunk")

end Yadorilink.Send
