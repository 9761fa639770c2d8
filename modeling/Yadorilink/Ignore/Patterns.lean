import Mathlib

/-! Lines of an ignore file: how a line is parsed, and which paths its pattern matches. A string is
the list of its characters; names are compared by the bytes of their encoding. -/

namespace Yadorilink.Ignore

/-! ## Patterns -/

inductive IgnorePatternSource where
  | builtIn
  | user
deriving DecidableEq

inductive PatternSegment where
  | doubleStar
  | glob (text : List Char)
deriving DecidableEq

structure IgnorePattern where
  original : List Char
  source : IgnorePatternSource
  sourceFile : List Char
  line : Nat
  includeChain : List (List Char)
  negated : Bool
  directoryOnly : Bool
  anchored : Bool
  caseInsensitive : Bool
  segments : List PatternSegment
deriving DecidableEq

/-! ## Parsing -/

/-- The characters with the Unicode property `White_Space`. -/
def isWhitespace (c : Char) : Bool :=
  (0x9 ≤ c.val && c.val ≤ 0xd) || c.val = 0x20 || c.val = 0x85 || c.val = 0xa0 || c.val = 0x1680 ||
    (0x2000 ≤ c.val && c.val ≤ 0x200a) || c.val = 0x2028 || c.val = 0x2029 || c.val = 0x202f ||
    c.val = 0x205f || c.val = 0x3000

def trimStart (text : List Char) : List Char := text.dropWhile isWhitespace

def trimEnd (text : List Char) : List Char := text.rdropWhile isWhitespace

def trim (text : List Char) : List Char := trimEnd (trimStart text)

/-- Takes a marker off the front, and with it the blanks behind it. -/
def stripMarker (marker text : List Char) : Bool × List Char :=
  match text.dropPrefix? marker with
  | some rest => (true, trimStart rest)
  | none => (false, text)

def stripSlash (body : List Char) : Bool × List Char :=
  match body.dropSuffix? ['/'] with
  | some rest => (true, rest)
  | none => (false, body)

def trimSlashes (body : List Char) : List Char := (body.dropWhile (· = '/')).rdropWhile (· = '/')

def containsDoubleSlash : List Char → Bool
  | '/' :: '/' :: _ => true
  | _ :: rest => containsDoubleSlash rest
  | [] => false

/-- `str::to_lowercase` is a parameter of what follows. -/
def parseSegment (lowercase : List Char → List Char) (caseInsensitive : Bool) (segment : List Char) :
    Option PatternSegment :=
  if segment.isEmpty || segment = ['.'] || segment = ['.', '.'] then none
  else if segment = ['*', '*'] then some .doubleStar
  else some (.glob (if caseInsensitive then lowercase segment else segment))

def parse (lowercase : List Char → List Char) (line : List Char) (source : IgnorePatternSource)
    (sourceFile : List Char) (lineNumber : Nat) (includeChain : List (List Char)) :
    Option IgnorePattern :=
  let trimmed := trim line
  if trimmed.isEmpty || trimmed.head? = some '#' then none
  else
    let insensitive := stripMarker ['(', '?', 'i', ')'] trimmed
    if insensitive.2.isEmpty then none
    else
      let negation := stripMarker ['!'] insensitive.2
      let body := trimEnd negation.2
      if body.isEmpty then none
      else
        let directory := stripSlash body
        let body := trimSlashes directory.2
        if body.isEmpty || body = ['.'] || containsDoubleSlash body then none
        else
          ((body.splitOn '/').mapM (parseSegment lowercase insensitive.1)).map fun segments =>
            { original := insensitive.2
              source
              sourceFile
              line := lineNumber
              includeChain
              negated := negation.1
              directoryOnly := directory.1
              anchored := body.contains '/'
              caseInsensitive := insensitive.1
              segments }

/-! ## Matching a name -/

def bytes (text : List Char) : List UInt8 := text.flatMap String.utf8EncodeChar

def starByte : UInt8 := 42

def markByte : UInt8 := 63

/-- The variables of the loop. -/
structure Cursor where
  pi : Nat
  ti : Nat
  star : Option Nat
  starText : Nat
deriving DecidableEq

/-- How the loop ends. -/
inductive Scan where
  /-- The text is at its end. -/
  | ended (pi : Nat)
  | mismatch
  /-- The turns ran out, which does not happen. -/
  | unfinished
deriving DecidableEq

/-- The pattern's next byte takes the text's next byte. -/
def takes (pattern text : List UInt8) (cursor : Cursor) : Bool :=
  pattern[cursor.pi]?.any fun byte => byte = markByte || some byte = text[cursor.ti]?

def scan (pattern text : List UInt8) : Nat → Cursor → Scan
  | 0, _ => .unfinished
  | turns + 1, cursor =>
    if cursor.ti < text.length then
      if takes pattern text cursor then
        scan pattern text turns { cursor with pi := cursor.pi + 1, ti := cursor.ti + 1 }
      else if pattern[cursor.pi]? = some starByte then
        scan pattern text turns { cursor with
          star := some cursor.pi
          pi := cursor.pi + 1
          starText := cursor.ti }
      else
        match cursor.star with
        | some starIndex => scan pattern text turns { cursor with
            pi := starIndex + 1
            starText := cursor.starText + 1
            ti := cursor.starText + 1 }
        | none => .mismatch
    else .ended cursor.pi

def scanTurns (pattern text : List UInt8) : Nat :=
  (text.length + 1) * (text.length + pattern.length + 2)

def segmentMatches (pattern text : List Char) : Bool :=
  match scan (bytes pattern) (bytes text) (scanTurns (bytes pattern) (bytes text)) ⟨0, 0, none, 0⟩ with
  | .ended pi => (((bytes pattern).drop pi).dropWhile (· = starByte)).isEmpty
  | .mismatch => false
  | .unfinished => false

/-! ## Matching a path -/

def matchSegments : List PatternSegment → List (List Char) → Bool
  | [], text => text.isEmpty
  | .doubleStar :: rest, text =>
    if rest.isEmpty then true
    else
      matchSegments rest text ||
        match text with
        | [] => false
        | _ :: later => matchSegments (.doubleStar :: rest) later
  | .glob _ :: _, [] => false
  | .glob glob :: rest, segment :: later => segmentMatches glob segment && matchSegments rest later
termination_by pattern text => pattern.length + text.length

def IgnorePattern.matchesAnchored (pattern : IgnorePattern) (path : List (List Char)) (isDir : Bool) :
    Bool :=
  (List.range' 1 path.length).any fun prefixLen =>
    matchSegments pattern.segments (path.take prefixLen) &&
      (!pattern.directoryOnly || decide (prefixLen < path.length) || isDir)

def IgnorePattern.matchesUnanchored (pattern : IgnorePattern) (path : List (List Char))
    (isDir : Bool) : Bool :=
  match pattern.segments with
  | [.glob glob] => path.zipIdx.any fun entry =>
    segmentMatches glob entry.1 &&
      (!pattern.directoryOnly || decide (entry.2 + 1 < path.length) || isDir)
  | _ => pattern.matchesAnchored path isDir

def IgnorePattern.matchesCaseNormalized (pattern : IgnorePattern) (path : List (List Char))
    (isDir : Bool) : Bool :=
  if pattern.anchored then pattern.matchesAnchored path isDir
  else pattern.matchesUnanchored path isDir

def IgnorePattern.matchesPath (lowercase : List Char → List Char) (pattern : IgnorePattern)
    (path : List (List Char)) (isDir : Bool) : Bool :=
  if path.isEmpty then false
  else if pattern.caseInsensitive then
    pattern.matchesCaseNormalized (path.map lowercase) isDir
  else pattern.matchesCaseNormalized path isDir

end Yadorilink.Ignore
