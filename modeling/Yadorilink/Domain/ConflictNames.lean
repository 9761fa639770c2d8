import Yadorilink.Domain.NativeFork

/-! The names of conflict copies: how a copy is recognised as one of a given path, and where it
sorts beside it. -/

namespace Yadorilink

def conflictMarker : List Char := " (conflicted copy, ".toList

def stripConflictSuffix : List Char → List Char
  | [] => []
  | char :: rest =>
    if " (conflicted copy, ".toList.isPrefixOf (char :: rest) then
      []
    else
      char :: stripConflictSuffix rest

def hasConflictMarker : List Char → Bool
  | [] => false
  | char :: rest => conflictMarker.isPrefixOf (char :: rest) || hasConflictMarker rest

/-- A path as directory, stem and extension. A name that begins with its only dot has none. -/
structure NameParts where
  dir : List Char
  stem : List Char
  ext : Option (List Char)
deriving DecidableEq

def splitFileName (dir filename : List Char) : NameParts :=
  match rsplitOnce '.' filename with
  | some (stem, ext) => if stem.isEmpty then ⟨dir, filename, none⟩ else ⟨dir, stem, some ext⟩
  | none => ⟨dir, filename, none⟩

def splitName (path : SyncPath) : NameParts :=
  match rsplitOnce '/' path.toList with
  | some (dir, name) => splitFileName (dir ++ ['/']) name
  | none => splitFileName [] path.toList

/-- Without the mark of a stem that was cut, if it ends with one. -/
def stripTruncationMarker (base : List Char) : Option (List Char) :=
  if stemTruncationMarker.isSuffixOf base then
    some (base.take (base.length - stemTruncationMarker.length))
  else
    none

/-- The base stem names the original one in full, or is a marked start of it. -/
def baseStemMatches (candidateBase originalStem : List Char) : Bool :=
  candidateBase == originalStem ||
    (stripTruncationMarker candidateBase).any fun start =>
      decide (PathRules.byteLength start < PathRules.byteLength originalStem) &&
        start.isPrefixOf originalStem

/-- `candidate` is a conflict copy beside `original`: same directory and extension, a conflict
marker in the stem, and before it the stem of the original. -/
def isConflictCopyOf (candidate original : SyncPath) : Bool :=
  (splitName candidate).dir == (splitName original).dir &&
    (splitName candidate).ext == (splitName original).ext &&
    hasConflictMarker (splitName candidate).stem &&
    baseStemMatches (stripConflictSuffix (splitName candidate).stem) (splitName original).stem

end Yadorilink
