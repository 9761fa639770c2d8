import Yadorilink.Ignore.Matching

/-! Matching a path, from the match of each name: over which names and patterns it finds what the
pattern denotes. -/

namespace Yadorilink.Ignore

open Wildcards List

/-! ## Stars in names -/

theorem star_of_mem_utf8EncodeChar {c : Char} (member : starByte ∈ String.utf8EncodeChar c) :
    c = '*' := by
  have isStar : ∀ value, starByte = UInt8.ofNat value → value % 256 = 42 := by
    intro value same
    have := congrArg UInt8.toNat same
    rw [UInt8.toNat_ofNat'] at this
    exact this.symm
  rw [String.utf8EncodeChar] at member
  split at member
  · rename_i ascii
    have value := isStar _ (mem_singleton.mp member)
    apply Char.ext
    apply UInt32.toNat_inj.mp
    have : ('*' : Char).val.toNat = 42 := rfl
    omega
  · exfalso
    split at member
    · rcases mem_pair.mp member with same | same
      · have := isStar _ same
        omega
      · have := isStar _ same
        omega
    · split at member
      · simp only [mem_cons, not_mem_nil, or_false] at member
        rcases member with same | same | same
        · have := isStar _ same
          omega
        · have := isStar _ same
          omega
        · have := isStar _ same
          omega
      · simp only [mem_cons, not_mem_nil, or_false] at member
        rcases member with same | same | same | same
        · have := isStar _ same
          omega
        · have := isStar _ same
          omega
        · have := isStar _ same
          omega
        · have := isStar _ same
          omega

theorem starByte_mem_bytes {text : List Char} : starByte ∈ bytes text ↔ '*' ∈ text := by
  rw [bytes, mem_flatMap]
  constructor
  · rintro ⟨c, member, starred⟩
    rw [← star_of_mem_utf8EncodeChar starred]
    exact member
  · intro member
    exact ⟨'*', member, .head _⟩

/-! ## Matching a path -/

section Paths

variable {pattern : IgnorePattern} {path : List (List Char)} {isDir : Bool}
  {segments : List PatternSegment} {lowercase : List Char → List Char}

def Reads (glob name : List Char) : Prop := segmentMatches glob name = true

theorem matchSegments_iff (segments : List PatternSegment) (path : List (List Char)) :
    matchSegments segments path = true ↔ Denotes (segments.map (segmentPiece Reads)) path := by
  induction segments generalizing path with
  | nil =>
    rw [matchSegments.eq_def]
    exact List.isEmpty_iff
  | cons segment rest induction =>
    cases segment with
    | doubleStar =>
      by_cases last : rest.isEmpty = true
      · rw [matchSegments.eq_def]
        dsimp only
        rw [if_pos last, List.isEmpty_iff.mp last]
        exact ⟨fun _ => ⟨path, [], (append_nil _).symm, rfl⟩, fun _ => rfl⟩
      · induction path with
        | nil =>
          rw [matchSegments.eq_def]
          dsimp only
          rw [if_neg last, Bool.or_false, induction]
          exact denotes_many_nil.symm
        | cons name later shorter =>
          rw [matchSegments.eq_def]
          dsimp only
          rw [if_neg last, Bool.or_eq_true, induction, shorter]
          exact denotes_many_cons.symm
    | glob glob =>
      rw [matchSegments.eq_def]
      cases path with
      | nil =>
        exact ⟨fun absurdly => absurd absurdly Bool.false_ne_true,
          fun denotes => absurd denotes not_denotes_one_nil⟩
      | cons name later =>
        dsimp only
        rw [Bool.and_eq_true, induction]
        have one : Denotes (.one (Reads glob) :: rest.map (segmentPiece Reads)) (name :: later) ↔
            Reads glob name ∧ Denotes (rest.map (segmentPiece Reads)) later := denotes_one_cons
        exact one.symm

theorem covers_iff {count : Nat} :
    (!pattern.directoryOnly || decide (count < path.length) || isDir) = true ↔
      Covers pattern path isDir count := by
  rw [Covers, Bool.or_eq_true, Bool.or_eq_true, Bool.not_eq_true', decide_eq_true_iff, or_assoc]

theorem matchesAnchored_iff : pattern.matchesAnchored path isDir = true ↔
    ∃ count, 1 ≤ count ∧ count ≤ path.length ∧
      Denotes (pattern.segments.map (segmentPiece Reads)) (path.take count) ∧
      Covers pattern path isDir count := by
  rw [IgnorePattern.matchesAnchored, any_eq_true]
  constructor
  · rintro ⟨count, member, taken⟩
    rw [mem_range'_1] at member
    rw [Bool.and_eq_true, matchSegments_iff, covers_iff] at taken
    exact ⟨count, member.1, by omega, taken⟩
  · rintro ⟨count, positive, inside, taken⟩
    refine ⟨count, mem_range'_1.mpr ⟨positive, by omega⟩, ?_⟩
    rw [Bool.and_eq_true, matchSegments_iff, covers_iff]
    exact taken

/-- What parsing promises about a pattern. -/
structure Parsed (pattern : IgnorePattern) : Prop where
  nonempty : pattern.segments ≠ []
  anchored : pattern.anchored = true ↔ 1 < pattern.segments.length
  globs : ∀ glob, .glob glob ∈ pattern.segments → glob ≠ []

theorem pathTaken_iff {reads : List Char → List Char → Prop}
    (several : ∀ glob, pattern.segments ≠ [.glob glob]) :
    PathTaken reads pattern path isDir ↔ ∃ count, 1 ≤ count ∧ count ≤ path.length ∧
      Denotes (pattern.segments.map (segmentPiece reads)) (path.take count) ∧
      Covers pattern path isDir count := by
  rw [PathTaken]
  split
  · rename_i glob single
    exact absurd single (several glob)
  · rfl

theorem matchesPath_iff (parsed : Parsed pattern) (sensitive : pattern.caseInsensitive = false) :
    pattern.matchesPath lowercase path isDir = true ↔ PathTaken Reads pattern path isDir := by
  have anchoredly : (∀ glob, pattern.segments ≠ [.glob glob]) →
      (pattern.matchesAnchored path isDir = true ↔ PathTaken Reads pattern path isDir) := by
    intro several
    rw [matchesAnchored_iff, pathTaken_iff several]
  have empty : path = [] → ¬PathTaken Reads pattern path isDir := by
    rintro rfl
    rw [PathTaken]
    split
    · rintro ⟨index, name, none, _⟩
      cases none
    · rintro ⟨count, positive, inside, _⟩
      rw [length_nil] at inside
      omega
  rw [IgnorePattern.matchesPath, sensitive]
  split
  · rename_i none
    exact ⟨fun absurdly => absurd absurdly Bool.false_ne_true,
      fun taken => absurd taken (empty (List.isEmpty_iff.mp none))⟩
  · rw [if_neg Bool.false_ne_true, IgnorePattern.matchesCaseNormalized]
    split
    · rename_i isAnchored
      apply anchoredly
      intro glob single
      have several := parsed.anchored.mp isAnchored
      rw [single] at several
      exact absurd several (Nat.lt_irrefl 1)
    · rw [IgnorePattern.matchesUnanchored]
      split
      · rename_i glob single
        rw [PathTaken, single, any_eq_true]
        constructor
        · rintro ⟨entry, member, taken⟩
          rw [Bool.and_eq_true, covers_iff] at taken
          exact ⟨entry.2, entry.1, mem_zipIdx_iff_getElem?.mp member, taken⟩
        · rintro ⟨index, name, found, taken⟩
          refine ⟨(name, index), mem_zipIdx_iff_getElem?.mpr found, ?_⟩
          rw [Bool.and_eq_true, covers_iff]
          exact taken
      · rename_i other
        exact anchoredly other

theorem pathTaken_congr {first second : List Char → List Char → Prop}
    (same : ∀ glob, .glob glob ∈ pattern.segments → ∀ name ∈ path, first glob name ↔ second glob name) :
    PathTaken first pattern path isDir ↔ PathTaken second pattern path isDir := by
  have agree : ∀ (one two : List Char → List Char → Prop) count, (∀ glob,
      .glob glob ∈ pattern.segments → ∀ name ∈ path, one glob name ↔ two glob name) →
      List.Forall₂ (Agree (path.take count)) (pattern.segments.map (segmentPiece one))
        (pattern.segments.map (segmentPiece two)) := by
    intro one two count alike
    rw [forall₂_map_left_iff, forall₂_map_right_iff, forall₂_same]
    intro segment member
    cases segment with
    | doubleStar => exact .many
    | glob glob => exact .one fun name listed => alike glob member name (mem_of_mem_take listed)
  rw [PathTaken, PathTaken]
  split
  · rename_i glob single
    have member : .glob glob ∈ pattern.segments := by
      rw [single]
      exact .head _
    constructor
    · rintro ⟨index, name, found, taken, covers⟩
      exact ⟨index, name, found, (same glob member name (mem_of_getElem? found)).mp taken, covers⟩
    · rintro ⟨index, name, found, taken, covers⟩
      exact ⟨index, name, found, (same glob member name (mem_of_getElem? found)).mpr taken, covers⟩
  · constructor
    · rintro ⟨count, positive, inside, denotes, covers⟩
      exact ⟨count, positive, inside, denotes_of_agree (agree first second count same) denotes, covers⟩
    · rintro ⟨count, positive, inside, denotes, covers⟩
      refine ⟨count, positive, inside, denotes_of_agree (agree second first count ?_) denotes, covers⟩
      exact fun glob member name listed => (same glob member name listed).symm

theorem matchesPath_iff_denoted (parsed : Parsed pattern)
    (sensitive : pattern.caseInsensitive = false)
    (plain : (∀ glob, .glob glob ∈ pattern.segments → '*' ∉ glob) ∨ ∀ name ∈ path, '*' ∉ name) :
    pattern.matchesPath lowercase path isDir = true ↔ PathDenoted pattern path isDir := by
  rw [matchesPath_iff parsed sensitive, PathDenoted]
  apply pathTaken_congr
  intro glob member name listed
  apply segmentMatches_iff
  rw [starByte_mem_bytes, starByte_mem_bytes]
  rcases plain with plainGlobs | plainNames
  · exact .inr (plainGlobs glob member)
  · exact .inl (plainNames name listed)

end Paths

/-! ## Parsed patterns -/

section Parsing

variable {lowercase : List Char → List Char} {line sourceFile : List Char}
  {source : IgnorePatternSource} {lineNumber : Nat} {includeChain : List (List Char)}
  {pattern : IgnorePattern}

theorem parseSegment_eq_some {insensitive : Bool} {text : List Char} {segment : PatternSegment}
    (parsed : parseSegment lowercase insensitive text = some segment) :
    text ≠ [] ∧ (segment = .doubleStar ∨
      segment = .glob (if insensitive then lowercase text else text)) := by
  rw [parseSegment] at parsed
  split at parsed
  · cases parsed
  · rename_i refused
    rw [Bool.or_eq_true, Bool.or_eq_true, not_or, not_or, List.isEmpty_iff] at refused
    split at parsed
    · cases parsed
      exact ⟨refused.1.1, .inl rfl⟩
    · cases parsed
      exact ⟨refused.1.1, .inr rfl⟩

theorem forall₂_of_mapM {α β : Type} {action : α → Option β} {items : List α} {results : List β}
    (all : items.mapM action = some results) :
    List.Forall₂ (fun item result => action item = some result) items results := by
  induction items generalizing results with
  | nil =>
    cases all
    exact .nil
  | cons item items induction =>
    rw [mapM_cons] at all
    rcases Option.bind_eq_some_iff.mp all with ⟨result, first, all⟩
    rcases Option.bind_eq_some_iff.mp all with ⟨others, later, all⟩
    cases all
    exact .cons first (induction later)

theorem exists_of_forall₂ {α β : Type} {related : α → β → Prop} {items : List α} {results : List β}
    (each : List.Forall₂ related items results) {result : β} (member : result ∈ results) :
    ∃ item, related item result := by
  induction each with
  | nil => cases member
  | cons first _ induction =>
    rcases mem_cons.mp member with rfl | later
    · exact ⟨_, first⟩
    · exact induction later

theorem one_lt_length_splitOn (body : List Char) : 1 < (body.splitOn '/').length ↔ '/' ∈ body := by
  constructor
  · intro several
    by_contra absent
    rw [splitOn_eq_singleton absent] at several
    exact absurd several (Nat.lt_irrefl 1)
  · intro member
    rcases append_of_mem member with ⟨front, back, rfl⟩
    have first := length_pos_iff.mpr (splitOn_ne_nil '/' front)
    have second := length_pos_iff.mpr (splitOn_ne_nil '/' back)
    rw [splitOn_append_cons_self, length_append]
    omega

theorem parsed_of_parse
    (accepted : parse lowercase line source sourceFile lineNumber includeChain = some pattern)
    (sensitive : pattern.caseInsensitive = false) : Parsed pattern := by
  rw [parse] at accepted
  dsimp only at accepted
  split at accepted
  · cases accepted
  · split at accepted
    · cases accepted
    · split at accepted
      · cases accepted
      · split at accepted
        · cases accepted
        · rcases Option.map_eq_some_iff.mp accepted with ⟨segments, all, rfl⟩
          dsimp only at sensitive
          rw [sensitive] at all
          have each := forall₂_of_mapM all
          refine ⟨?_, ?_, ?_⟩
          · rintro rfl
            have none := each.length_eq
            rw [length_nil, length_eq_zero_iff] at none
            exact splitOn_ne_nil _ _ none
          · rw [← each.length_eq, one_lt_length_splitOn, contains_iff_mem]
          · intro glob member
            rcases exists_of_forall₂ each member with ⟨text, parsed⟩
            rcases parseSegment_eq_some parsed with ⟨nonempty, stars | isGlob⟩
            · cases stars
            · cases isGlob
              exact nonempty

end Parsing

end Yadorilink.Ignore
