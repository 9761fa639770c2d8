import Yadorilink.Domain.Ids

/-! Which paths a delta may name. `validatePath` is the structural rule the
decoder applies; `wirePathAdmissionRefusal` is the rule admission applies to
keep names out that some platform could not store. Both look at the path as a
list of characters; a length is always a length in UTF-8 bytes. -/

namespace Yadorilink

/-! ## Reserved names -/

def ignoreFileName : String := ".yadorilinkignore"

def rootMarkerFileName : String := ".yadorilink-root"

def syncRootLockFileName : String := ".yadorilink-root.lock"

/-! ## Strings as lists of characters -/

namespace PathRules

def byteLength (name : List Char) : Nat := (name.map Char.utf8Size).sum

def isAscii (name : List Char) : Bool := name.all fun char => char.toNat < 128

def eqIgnoreAsciiCase (left right : List Char) : Bool :=
  left.map Char.toLower = right.map Char.toLower

/-- What follows the ASCII text `lead` at the start of `name`, compared without
regard to ASCII case. -/
def stripLeadIgnoreCase (lead name : List Char) : Option (List Char) :=
  if eqIgnoreAsciiCase lead (name.take lead.length) then some (name.drop lead.length) else none

def firstSegment (isSeparator : Char → Bool) (name : List Char) : List Char :=
  name.takeWhile fun char => !isSeparator char

def isSeparator (char : Char) : Bool := char = '/' || char = '\\'

end PathRules

open PathRules

/-! ## Structural validity -/

def maxPathBytes : Nat := 4096

def maxPathSegments : Nat := 255

inductive PathError where
  | empty
  | tooLong
  | nulByte
  | backslash
  | absolute
  | reservedControlFile
  | driveQualified
  | tooManySegments
  | emptySegment
  | dotSegment
deriving DecidableEq

def checkSegments : List (List Char) → Except PathError Unit
  | [] => .ok ()
  | segment :: rest =>
    if segment.isEmpty then .error .emptySegment
    else if segment = ['.'] ∨ segment = ['.', '.'] then .error .dotSegment
    else checkSegments rest

/-- Refuses a path that is empty, too long, absolute, drive-qualified, names a
control file of the sync root, or has an empty, `.` or `..` segment. -/
def validatePath (path : SyncPath) : Except PathError Unit :=
  let chars := path.toList
  let first := firstSegment isSeparator chars
  let segments := chars.splitOnP isSeparator
  if chars.isEmpty then .error .empty
  else if byteLength chars > maxPathBytes then .error .tooLong
  else if chars.contains (Char.ofNat 0) then .error .nulByte
  else if chars.contains '\\' then .error .backslash
  else if chars.head? = some '/' then .error .absolute
  else if first = rootMarkerFileName.toList ∨ first = ignoreFileName.toList then
    .error .reservedControlFile
  -- The second byte is a colon only when the first character is one byte long.
  else if first[1]? = some ':' ∧ isAscii (first.take 1) then .error .driveQualified
  else if segments.length > maxPathSegments then .error .tooManySegments
  else checkSegments segments

/-! ## Names the product reserves -/

inductive ArtefactKind where
  | stage
  | preimage
  | backup
  | retained
  | probe
  | discard
deriving DecidableEq

namespace ArtefactKind

def all : List ArtefactKind := [stage, preimage, backup, retained, probe, discard]

def kindLead : ArtefactKind → String
  | stage => "stage"
  | preimage => "preimage"
  | backup => "backup"
  | retained => "retained"
  | probe => "probe"
  | discard => "discard"

end ArtefactKind

def v1Lead : String := ".yadorilink-v1-"

def isValidId (id : List Char) : Bool :=
  !id.isEmpty && id.all fun char => char.isAlphanum || char = '-' || char = '_'

/-- The kind and id of a component named `.yadorilink-v1-<kind>.<id>`. -/
def parseArtefactComponent (name : List Char) : Option (ArtefactKind × List Char) :=
  match stripLeadIgnoreCase v1Lead.toList name with
  | none => none
  | some rest =>
    ArtefactKind.all.findSome? fun kind =>
      match stripLeadIgnoreCase kind.kindLead.toList rest with
      | some ('.' :: id) => if isValidId id then some (kind, id) else none
      | _ => none

def stripWindowsTrailingNormalization (name : List Char) : List Char :=
  (name.reverse.dropWhile fun char => char = '.' || char = ' ').reverse

def stripAlternateDataStreamSuffix (name : List Char) : List Char :=
  firstSegment (· = ':') name

def isArtefactWireComponent (component : List Char) : Bool :=
  (parseArtefactComponent
    (stripWindowsTrailingNormalization (stripAlternateDataStreamSuffix component))).isSome

def wirePathComponents (path : SyncPath) : List (List Char) :=
  path.toList.splitOnP isSeparator

def pathHasArtefactComponentInWirePath (path : SyncPath) : Bool :=
  (wirePathComponents path).any isArtefactWireComponent

/-- Exactly the lock file at the root, nothing nested. -/
def wirePathNamesSyncRootLock (path : SyncPath) : Bool :=
  match wirePathComponents path with
  | [only] =>
    eqIgnoreAsciiCase (stripAlternateDataStreamSuffix only) syncRootLockFileName.toList
  | _ => false

/-! ## Names some platform cannot store -/

def windowsReservedDeviceNames : List String :=
  ["CON", "PRN", "AUX", "NUL", "COM1", "COM2", "COM3", "COM4", "COM5", "COM6", "COM7", "COM8",
    "COM9", "LPT1", "LPT2", "LPT3", "LPT4", "LPT5", "LPT6", "LPT7", "LPT8", "LPT9", "CONIN$",
    "CONOUT$"]

/-- The names with a superscript one, two or three, which match exactly. -/
def windowsReservedDeviceNameSuperscripts : List String :=
  ["COM\u00B9", "COM\u00B2", "COM\u00B3", "LPT\u00B9", "LPT\u00B2", "LPT\u00B3"]

def isWindowsReservedDeviceName (component : List Char) : Bool :=
  let stem := firstSegment (· = '.') component
  windowsReservedDeviceNames.any (fun reserved => eqIgnoreAsciiCase stem reserved.toList) ||
    windowsReservedDeviceNameSuperscripts.any (fun reserved => stem = reserved.toList)

def windowsReservedFilenameChars : List Char := ['<', '>', '"', '|', '?', '*']

def containsAsciiControlCharacter (component : List Char) : Bool :=
  component.any fun char => 1 ≤ char.toNat && char.toNat ≤ 31

/-- A name shaped like a generated short name, such as `LONGNA~1.TXT`. -/
def hasShortNameAliasShape (component : List Char) : Bool :=
  let stem := firstSegment (· = '.') component
  let digits := (stem.reverse.takeWhile (· ≠ '~')).reverse
  let rest := component.drop stem.length
  if stem.isEmpty || byteLength stem > 8 || !isAscii stem then false
  else if !stem.contains '~' then false
  else if digits.length + 1 = stem.length then false
  else if digits.isEmpty || !digits.all Char.isDigit then false
  else
    match rest with
    | [] => true
    | first :: ext =>
      first = '.' && !ext.isEmpty && byteLength ext ≤ 3 && isAscii ext && !ext.contains '.'

def wireComponentIsNonPortable (component : List Char) : Bool :=
  component.contains ':' ||
    component.any (fun char => windowsReservedFilenameChars.contains char) ||
    containsAsciiControlCharacter component ||
    isWindowsReservedDeviceName component ||
    hasShortNameAliasShape component ||
    stripWindowsTrailingNormalization component ≠ component

def pathHasNonPortableWireComponent (path : SyncPath) : Bool :=
  (wirePathComponents path).any wireComponentIsNonPortable

inductive WirePathRefusal where
  | reservedNamespace
  | nonPortable
deriving DecidableEq

/-- Whether a path that arrived off the wire may never be stored. -/
def wirePathAdmissionRefusal (path : SyncPath) : Option WirePathRefusal :=
  if pathHasArtefactComponentInWirePath path || wirePathNamesSyncRootLock path then
    some .reservedNamespace
  else if pathHasNonPortableWireComponent path then
    some .nonPortable
  else
    none

example : wirePathAdmissionRefusal "docs/CON.txt" = some .nonPortable := by decide

example : wirePathAdmissionRefusal "docs/notes.txt" = none := by decide

end Yadorilink
