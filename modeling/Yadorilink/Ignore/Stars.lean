import Yadorilink.Ignore.Paths

/-! Where a star of the pattern meets a star in a name. For every name with a star there is a pattern
that denotes it and does not match, and for every pattern with a star such a path. -/

namespace Yadorilink.Ignore

open Wildcards List

/-! ## Names with a star -/

section Names

variable {name glob : List Char}

theorem bytes_append (first second : List Char) :
    bytes (first ++ second) = bytes first ++ bytes second :=
  flatMap_append

theorem bytes_star (text : List Char) : bytes ('*' :: text) = starByte :: bytes text := rfl

theorem bytes_marks (count : Nat) :
    bytes (List.replicate count '?') = List.replicate count markByte := by
  induction count with
  | zero => rfl
  | succ count induction =>
    rw [replicate_succ, replicate_succ, ← induction]
    rfl

theorem starByte_not_mem_marks (count : Nat) : starByte ∉ List.replicate count markByte := by
  intro member
  cases eq_of_mem_replicate member

theorem denotes_marks (text : List UInt8) :
    Denotes ((List.replicate text.length markByte).map pieceOf) text := by
  induction text with
  | nil => rfl
  | cons byte text induction => exact ⟨byte, text, rfl, trivial, induction⟩

theorem denotes_self (pattern : List UInt8) : Denotes (pattern.map pieceOf) pattern := by
  induction pattern with
  | nil => rfl
  | cons byte pattern induction =>
    rw [map_cons, pieceOf]
    split
    · exact ⟨[byte], pattern, rfl, induction⟩
    · split
      · exact ⟨byte, pattern, rfl, trivial, induction⟩
      · exact ⟨byte, pattern, rfl, rfl, induction⟩

/-- The pattern goes on behind its star by more or fewer bytes than the name behind its own. -/
theorem not_reads_of_star {taken items rest tail : List UInt8}
    (agree : List.Forall₂ (fun byte item => byte = markByte ∨ byte = item) taken items)
    (isGlob : bytes glob = taken ++ starByte :: rest) (isName : bytes name = items ++ starByte :: tail)
    (plain : starByte ∉ rest) (differ : tail.length ≠ rest.length) : ¬Reads glob name := by
  intro reads
  have longer := rel_append agree (.cons (.inr rfl) .nil : List.Forall₂
    (fun byte item => byte = markByte ∨ byte = item) [starByte] [starByte])
  have denotes : Denotes (rest.map pieceOf) tail := by
    apply (segmentMatches_of_agree longer _ _ (.inr plain)).mp reads
    · rw [isGlob, append_assoc]
      rfl
    · rw [isName, append_assoc]
      rfl
  exact differ (length_of_denotes plain denotes)

theorem forall₂_marks (text : List UInt8) :
    List.Forall₂ (fun byte item => byte = markByte ∨ byte = item)
      (List.replicate text.length markByte) text := by
  induction text with
  | nil => exact .nil
  | cons byte text induction => exact .cons (.inl rfl) induction

theorem exists_missed_glob (starred : '*' ∈ name) :
    ∃ before after, GlobDenotes (List.replicate before '?' ++ '*' :: List.replicate (after + 1) '?') name ∧
      ¬Reads (List.replicate before '?' ++ '*' :: List.replicate (after + 1) '?') name := by
  rcases append_of_mem (starByte_mem_bytes.mpr starred) with ⟨front, back, split⟩
  refine ⟨front.length, back.length, ?_, ?_⟩
  · rw [GlobDenotes, bytes_append, bytes_star, bytes_marks, bytes_marks, split, map_append]
    apply denotes_append (denotes_marks front)
    exact denotes_many_of_denotes (denotes_marks (starByte :: back))
  · apply not_reads_of_star (forall₂_marks front) _ split (starByte_not_mem_marks (back.length + 1))
    · rw [length_replicate]
      omega
    · rw [bytes_append, bytes_star, bytes_marks, bytes_marks]

theorem exists_missed_name (nonempty : glob ≠ []) :
    ∃ name, name ≠ [] ∧ GlobDenotes glob name ∧ ('*' ∈ glob → ¬Reads glob name) := by
  by_cases starred : '*' ∈ glob
  · -- The last star, so that what is behind it has none.
    rcases eq_append_cons_of_mem (mem_reverse.mpr starred) with ⟨back, front, split, plain⟩
    have isGlob : glob = front.reverse ++ '*' :: back.reverse := by
      rw [← reverse_inj, split, reverse_append, reverse_cons, reverse_reverse,
        reverse_reverse, append_assoc]
      rfl
    refine ⟨front.reverse ++ '*' :: '*' :: back.reverse, by simp, ?_, ?_⟩
    · rw [GlobDenotes, isGlob, bytes_append, bytes_append, bytes_star, bytes_star, bytes_star,
        map_append]
      apply denotes_append (denotes_self _)
      exact ⟨[starByte, starByte], bytes back.reverse, rfl, denotes_self _⟩
    · intro _
      have same : ∀ text : List UInt8,
          List.Forall₂ (fun byte item => byte = markByte ∨ byte = item) text text := fun text =>
        forall₂_same.mpr fun _ _ => .inr rfl
      have unstarred : starByte ∉ bytes back.reverse := by
        rw [starByte_mem_bytes, mem_reverse]
        exact plain
      have globBytes : bytes glob = bytes front.reverse ++ starByte :: bytes back.reverse := by
        rw [isGlob, bytes_append, bytes_star]
      have nameBytes : bytes (front.reverse ++ '*' :: '*' :: back.reverse) =
          bytes front.reverse ++ starByte :: starByte :: bytes back.reverse := by
        rw [bytes_append, bytes_star, bytes_star]
      apply not_reads_of_star (same (bytes front.reverse)) globBytes nameBytes unstarred
      rw [length_cons]
      omega
  · exact ⟨glob, nonempty, denotes_self _, fun present => absurd present starred⟩

end Names

/-! ## Paths with a star -/

section Lines

variable {lowercase : List Char → List Char} {sourceFile : List Char} {source : IgnorePatternSource}
  {lineNumber : Nat} {includeChain : List (List Char)} {globs : List (List Char)}

def lineOf (globs : List (List Char)) : List Char :=
  globs.flatMap (fun glob => glob ++ ['/']) ++ ['*', '*']

/-- A glob of question marks and stars that is not two stars. -/
def Marked (glob : List Char) : Prop := '?' ∈ glob ∧ ∀ c ∈ glob, c = '?' ∨ c = '*'

theorem Marked.slash {glob : List Char} (marked : Marked glob) : '/' ∉ glob := by
  intro member
  rcases marked.2 '/' member with same | same
  · cases same
  · cases same

theorem parseSegment_marked {glob : List Char} (marked : Marked glob) :
    parseSegment lowercase false glob = some (.glob glob) := by
  have apart : ∀ other : List Char, '?' ∉ other → glob ≠ other := by
    rintro other absent rfl
    exact absent marked.1
  rw [parseSegment, if_neg, if_neg (apart _ (by decide))]
  · rfl
  · rw [Bool.or_eq_true, Bool.or_eq_true, List.isEmpty_iff, decide_eq_true_iff, decide_eq_true_iff]
    rintro ((same | same) | same)
    · exact apart _ (by decide) same
    · exact apart _ (by decide) same
    · exact apart _ (by decide) same

theorem lineOf_cons (glob : List Char) (globs : List (List Char)) :
    lineOf (glob :: globs) = glob ++ '/' :: lineOf globs := by
  rw [lineOf, lineOf, flatMap_cons, append_assoc, append_assoc]
  rfl

theorem splitOn_lineOf (marked : ∀ glob ∈ globs, Marked glob) :
    (lineOf globs).splitOn '/' = globs ++ [['*', '*']] := by
  induction globs with
  | nil => rfl
  | cons glob globs induction =>
    rw [lineOf_cons, splitOn_append_cons_self_of_not_mem (marked glob mem_cons_self).slash,
      induction fun other member => marked other (.tail _ member)]
    rfl

theorem exists_lineOf (marked : ∀ glob ∈ globs, Marked glob) :
    ∃ c rest, lineOf globs = c :: rest ∧ (c = '?' ∨ c = '*') := by
  cases globs with
  | nil => exact ⟨'*', ['*'], rfl, .inr rfl⟩
  | cons glob globs =>
    rw [lineOf_cons]
    have first := marked glob mem_cons_self
    cases glob with
    | nil => cases first.1
    | cons c glob => exact ⟨c, _, rfl, first.2 c mem_cons_self⟩

theorem containsDoubleSlash_append {front back : List Char} (absent : '/' ∉ front)
    (back_head : back.head? ≠ some '/') :
    containsDoubleSlash (front ++ '/' :: back) = containsDoubleSlash back := by
  induction front with
  | nil =>
    cases back with
    | nil => rfl
    | cons c back =>
      have apart : c ≠ '/' := fun same => back_head (by rw [same]; rfl)
      rw [nil_append, containsDoubleSlash]
      intro rest _ same
      cases same
      exact apart rfl
  | cons c front induction =>
    rw [mem_cons, not_or] at absent
    rw [cons_append, containsDoubleSlash]
    · exact induction absent.2
    · intro rest same _
      exact absent.1 same.symm

theorem containsDoubleSlash_lineOf (marked : ∀ glob ∈ globs, Marked glob) :
    containsDoubleSlash (lineOf globs) = false := by
  induction globs with
  | nil => rfl
  | cons glob globs induction =>
    have later : ∀ other ∈ globs, Marked other := fun other member =>
      marked other (.tail _ member)
    rw [lineOf_cons, containsDoubleSlash_append (marked glob mem_cons_self).slash]
    · exact induction later
    · rcases exists_lineOf later with ⟨c, rest, isLine, rfl | rfl⟩
      · simp [isLine]
      · simp [isLine]

theorem stripSlash_concat (front : List Char) {c : Char} (apart : c ≠ '/') :
    stripSlash (front ++ [c]) = (false, front ++ [c]) := by
  rw [stripSlash, dropSuffix?]
  simp [apart]

theorem mapM_parseSegment (marked : ∀ glob ∈ globs, Marked glob) :
    (globs ++ [['*', '*']]).mapM (parseSegment lowercase false) =
      some (globs.map .glob ++ [.doubleStar]) := by
  induction globs with
  | nil => rfl
  | cons glob globs induction =>
    rw [cons_append, mapM_cons, parseSegment_marked (marked glob mem_cons_self),
      induction fun other member => marked other (.tail _ member)]
    rfl

theorem parse_lineOf {globs : List (List Char)} (marked : ∀ glob ∈ globs, Marked glob) :
    ∃ pattern, parse lowercase (lineOf globs) source sourceFile lineNumber includeChain =
        some pattern ∧ pattern.caseInsensitive = false ∧ pattern.directoryOnly = false ∧
      pattern.segments = globs.map .glob ++ [.doubleStar] := by
  rcases exists_lineOf marked with ⟨c, rest, isLine, first⟩
  have last : lineOf globs = (globs.flatMap (fun glob => glob ++ ['/']) ++ ['*']) ++ ['*'] := by
    rw [lineOf, append_assoc]
    rfl
  have drops : ∀ taken : Char → Bool, taken c = false → taken '*' = false →
      ((lineOf globs).dropWhile taken = lineOf globs ∧
        (lineOf globs).rdropWhile taken = lineOf globs) := by
    intro taken notFirst notLast
    constructor
    · rw [isLine, dropWhile_cons_of_neg (by rw [notFirst]; decide)]
    · rw [last, rdropWhile_concat_neg _ _ _ (by rw [notLast]; decide)]
  have blank : isWhitespace c = false := by
    rcases first with rfl | rfl
    · rfl
    · rfl
  have notSlash : decide (c = '/') = false := by
    rcases first with rfl | rfl
    · rfl
    · rfl
  have trimmed : trim (lineOf globs) = lineOf globs := by
    rw [trim, trimStart, trimEnd, (drops isWhitespace blank rfl).1, (drops isWhitespace blank rfl).2]
  have marker : stripMarker ['(', '?', 'i', ')'] (lineOf globs) = (false, lineOf globs) := by
    rw [stripMarker, isLine]
    rcases first with rfl | rfl
    · rfl
    · rfl
  have negation : stripMarker ['!'] (lineOf globs) = (false, lineOf globs) := by
    rw [stripMarker, isLine]
    rcases first with rfl | rfl
    · rfl
    · rfl
  have slash : stripSlash (lineOf globs) = (false, lineOf globs) := by
    rw [last]
    exact stripSlash_concat _ (by decide)
  have slashes : trimSlashes (lineOf globs) = lineOf globs := by
    rw [trimSlashes, (drops (fun c => c = '/') notSlash rfl).1,
      (drops (fun c => c = '/') notSlash rfl).2]
  have parsed : ((lineOf globs).splitOn '/').mapM (parseSegment lowercase false) =
      some (globs.map .glob ++ [.doubleStar]) := by
    rw [splitOn_lineOf marked]
    exact mapM_parseSegment marked
  have nonempty : ¬(lineOf globs).isEmpty = true := by
    rw [isLine]
    exact Bool.false_ne_true
  have comment : ¬((lineOf globs).isEmpty || (lineOf globs).head? = some '#') = true := by
    rw [isLine]
    rcases first with rfl | rfl
    · exact Bool.false_ne_true
    · exact Bool.false_ne_true
  have body : ¬((lineOf globs).isEmpty || lineOf globs = ['.'] ||
      containsDoubleSlash (lineOf globs)) = true := by
    rw [containsDoubleSlash_lineOf marked, isLine]
    rcases first with rfl | rfl
    · simp
    · simp
  refine ⟨⟨lineOf globs, source, sourceFile, lineNumber, includeChain, false, false,
    (lineOf globs).contains '/', false, globs.map .glob ++ [.doubleStar]⟩, ?_, rfl, rfl, rfl⟩
  rw [parse, trimmed]
  dsimp only
  rw [if_neg comment, marker]
  dsimp only
  rw [if_neg nonempty, negation]
  dsimp only
  rw [trimEnd, (drops isWhitespace blank rfl).2, if_neg nonempty, slash]
  dsimp only
  rw [slashes, if_neg body, parsed]
  rfl

end Lines

section Claims

variable {lowercase : List Char → List Char} {pattern : IgnorePattern} {path : List (List Char)}

/-- A line is parsed to this pattern, and its case matters. -/
def Accepted (lowercase : List Char → List Char) (pattern : IgnorePattern) : Prop :=
  pattern.caseInsensitive = false ∧ ∃ line source sourceFile lineNumber includeChain,
    parse lowercase line source sourceFile lineNumber includeChain = some pattern

theorem Accepted.parsed (accepted : Accepted lowercase pattern) : Parsed pattern := by
  rcases accepted with ⟨sensitive, line, source, sourceFile, lineNumber, includeChain, isPattern⟩
  exact parsed_of_parse isPattern sensitive

/-- The pattern matches the path, of a file or of a directory, exactly when it stands for it. -/
def MatchesDenoted (lowercase : List Char → List Char) (pattern : IgnorePattern)
    (path : List (List Char)) : Prop :=
  ∀ isDir, pattern.matchesPath lowercase path isDir = true ↔ PathDenoted pattern path isDir

theorem exists_missed_pattern (nonempty : ∀ name ∈ path, name ≠ []) {name : List Char}
    (member : name ∈ path) (starred : '*' ∈ name) :
    ∃ pattern, Accepted lowercase pattern ∧ ¬MatchesDenoted lowercase pattern path := by
  rcases append_of_mem member with ⟨front, back, rfl⟩
  rcases exists_missed_glob starred with ⟨before, after, denotes, unread⟩
  have marksOf : ∀ count, Marked (List.replicate (count + 1) '?') := fun count =>
    ⟨.head _, fun c listed => .inl (eq_of_mem_replicate listed)⟩
  have marked : ∀ glob ∈ front.map (fun other => List.replicate (bytes other).length '?') ++
      [List.replicate before '?' ++ '*' :: List.replicate (after + 1) '?'], Marked glob := by
    intro glob listed
    rcases mem_append.mp listed with inFront | last
    · rcases mem_map.mp inFront with ⟨other, isOther, rfl⟩
      have some : other ≠ [] := nonempty other (mem_append_left _ isOther)
      cases encoded : bytes other with
      | nil =>
        cases other with
        | nil => exact absurd rfl some
        | cons c other =>
          rw [bytes, flatMap_cons] at encoded
          exact absurd (append_eq_nil_iff.mp encoded).1 String.utf8EncodeChar_ne_nil
      | cons byte rest => exact marksOf rest.length
    · rw [mem_singleton.mp last]
      refine ⟨mem_append_right _ (mem_cons_of_mem _ mem_cons_self), ?_⟩
      intro c listed
      rcases mem_append.mp listed with isMark | rest
      · exact .inl (eq_of_mem_replicate isMark)
      · rcases mem_cons.mp rest with isStar | isMark
        · exact .inr isStar
        · exact .inl (eq_of_mem_replicate isMark)
  rcases @parse_lineOf lowercase [] .user 0 [] _ marked with
    ⟨pattern, isPattern, sensitive, directories, segments⟩
  have accepted : Accepted lowercase pattern := ⟨sensitive, _, _, _, _, _, isPattern⟩
  refine ⟨pattern, accepted, ?_⟩
  intro exactly
  have several : ∀ glob, pattern.segments ≠ [.glob glob] := by
    intro glob single
    have shorter := congrArg List.length (single.symm.trans segments)
    simp at shorter
  have pieces : ∀ reads, pattern.segments.map (segmentPiece reads) =
      (front.map fun other => .one (reads (List.replicate (bytes other).length '?'))) ++
        .one (reads (List.replicate before '?' ++ '*' :: List.replicate (after + 1) '?')) ::
          [.many] := by
    intro reads
    rw [segments]
    simp [segmentPiece]
  have read := (matchesPath_iff accepted.parsed sensitive).mp ((exactly false).mpr ?_)
  · rw [pathTaken_iff several, pieces] at read
    rcases read with ⟨count, _, _, taken, _⟩
    rcases accepts_of_denotes (by simp) taken with ⟨item, found, reads⟩
    rw [length_map, getElem?_take] at found
    split at found
    · rw [getElem?_append_right (Nat.le_refl _), Nat.sub_self] at found
      cases found
      exact unread reads
    · cases found
  · rw [PathDenoted, pathTaken_iff several, pieces]
    refine ⟨front.length + 1, Nat.succ_pos _, by simp, ?_, .inl directories⟩
    have part : (front ++ name :: back).take (front.length + 1) = front ++ [name] := by
      simp [take_append]
    rw [part]
    apply denotes_append
    · apply denotes_map_one
      apply forall₂_same.mpr
      intro other _
      rw [GlobDenotes, bytes_marks]
      exact denotes_marks _
    · exact ⟨name, [], rfl, denotes, [], [], rfl, rfl⟩

theorem exists_missed_names (segments : List PatternSegment)
    (globs : ∀ glob, .glob glob ∈ segments → glob ≠ []) :
    ∃ names : List (List Char), (∀ name ∈ names, name ≠ []) ∧
      List.Forall₂ (fun accepts name => accepts name)
        (ones (segments.map (segmentPiece GlobDenotes))) names ∧
      (ones (segments.map (segmentPiece Reads))).length = names.length ∧
      ((∃ glob, .glob glob ∈ segments ∧ '*' ∈ glob) →
        ¬List.Forall₂ (fun accepts name => accepts name)
          (ones (segments.map (segmentPiece Reads))) names) := by
  induction segments with
  | nil =>
    refine ⟨[], fun _ none => absurd none not_mem_nil, .nil, rfl, ?_⟩
    rintro ⟨glob, none, _⟩
    cases none
  | cons segment segments induction =>
    rcases induction fun glob member => globs glob (.tail _ member) with
      ⟨names, nonempty, denotes, long, missed⟩
    cases segment with
    | doubleStar =>
      refine ⟨names, nonempty, denotes, long, ?_⟩
      rintro ⟨glob, member, starred⟩
      rcases mem_cons.mp member with same | later
      · cases same
      · exact missed ⟨glob, later, starred⟩
    | glob glob =>
      rcases exists_missed_name (globs glob mem_cons_self) with
        ⟨name, some, denoted, unread⟩
      refine ⟨name :: names, ?_, .cons denoted denotes, congrArg Nat.succ long, ?_⟩
      · exact forall_mem_cons.mpr ⟨some, nonempty⟩
      · rintro ⟨other, member, starred⟩ all
        cases all with
        | cons read reads =>
          rcases mem_cons.mp member with same | later
          · cases same
            exact unread starred read
          · exact missed ⟨other, later, starred⟩ reads

/-- A pattern takes the path of a directory with a name for each of its globs when each glob takes
its name. -/
theorem pathTaken_names {reads : List Char → List Char → Prop} {names : List (List Char)}
    (some : names ≠ [])
    (long : names.length = (ones (pattern.segments.map (segmentPiece reads))).length) :
    PathTaken reads pattern names true ↔ List.Forall₂ (fun accepts name => accepts name)
      (ones (pattern.segments.map (segmentPiece reads))) names := by
  by_cases single : ∃ glob, pattern.segments = [.glob glob]
  · rcases single with ⟨glob, single⟩
    rw [single] at long
    rcases length_eq_one_iff.mp long with ⟨name, rfl⟩
    have all : List.Forall₂ (fun accepts name => accepts name)
        (ones (pattern.segments.map (segmentPiece reads))) [name] ↔ reads glob name := by
      rw [single]
      constructor
      · intro all
        cases all with
        | cons read _ => exact read
      · exact fun read => .cons read .nil
    rw [all, PathTaken, single]
    constructor
    · rintro ⟨index, other, found, read, _⟩
      rw [← mem_singleton.mp (mem_of_getElem? found)]
      exact read
    · exact fun read => ⟨0, name, rfl, read, .inr (.inr rfl)⟩
  · rw [pathTaken_iff (not_exists.mp single), ← denotes_iff_forall₂ long]
    constructor
    · rintro ⟨count, _, inside, taken, _⟩
      have shorter := length_ones_le taken
      rw [length_take] at shorter
      rwa [take_of_length_le (by omega)] at taken
    · intro taken
      refine ⟨names.length, length_pos_iff.mpr some, Nat.le_refl _, ?_, .inr (.inr rfl)⟩
      rwa [take_length]

theorem exists_missed_path (accepted : Accepted lowercase pattern)
    (starred : ∃ glob, .glob glob ∈ pattern.segments ∧ '*' ∈ glob) :
    ∃ path, (∀ name ∈ path, name ≠ []) ∧ ¬MatchesDenoted lowercase pattern path := by
  rcases exists_missed_names pattern.segments accepted.parsed.globs with
    ⟨names, nonempty, denotes, long, missed⟩
  refine ⟨names, nonempty, ?_⟩
  intro exactly
  have some : names ≠ [] := by
    rintro rfl
    apply missed starred
    rw [length_eq_zero_iff.mp long]
    exact .nil
  have denoted : PathDenoted pattern names true := (pathTaken_names some denotes.length_eq.symm).mpr denotes
  have read := (matchesPath_iff accepted.parsed accepted.1).mp ((exactly true).mpr denoted)
  exact missed starred ((pathTaken_names some long.symm).mp read)

theorem matchesPath_below (accepted : Accepted lowercase pattern) {more : List (List Char)}
    (below : more ≠ []) (matched : pattern.matchesPath lowercase path true = true) (isDir : Bool) :
    pattern.matchesPath lowercase (path ++ more) isDir = true := by
  have parsed := accepted.parsed
  have longer : path.length < (path ++ more).length := by
    have := length_pos_iff.mpr below
    rw [length_append]
    omega
  rw [matchesPath_iff parsed accepted.1] at matched ⊢
  by_cases single : ∃ glob, pattern.segments = [.glob glob]
  · rcases single with ⟨glob, single⟩
    rw [PathTaken, single] at matched ⊢
    rcases matched with ⟨index, name, found, read, _⟩
    have inside := (List.getElem?_eq_some_iff.mp found).1
    refine ⟨index, name, ?_, read, .inr (.inl (by omega))⟩
    rw [getElem?_append_left inside]
    exact found
  · have several := not_exists.mp single
    rw [pathTaken_iff several] at matched ⊢
    rcases matched with ⟨count, positive, inside, taken, _⟩
    refine ⟨count, positive, by omega, ?_, .inr (.inl (by omega))⟩
    rw [take_append_of_le_length inside]
    exact taken

end Claims

end Yadorilink.Ignore
