import Yadorilink.Foundation.Wildcards
import Yadorilink.Ignore.Patterns

/-! What a pattern denotes, and that matching finds it. The loop over a name compares bytes before it
looks for a star, so it reads a star of the pattern over a star of the name as that star alone. -/

namespace Yadorilink.Ignore

open Wildcards List

/-! ## What a pattern denotes -/

/-- A star is any number of bytes, a question mark any one byte, every other byte itself. -/
def pieceOf (byte : UInt8) : Piece UInt8 :=
  if byte = starByte then .many
  else if byte = markByte then .one fun _ => True
  else .one fun other => other = byte

def GlobDenotes (glob name : List Char) : Prop := Denotes ((bytes glob).map pieceOf) (bytes name)

section Reading

variable (reads : List Char → List Char → Prop)

def segmentPiece : PatternSegment → Piece (List Char)
  | .doubleStar => .many
  | .glob glob => .one (reads glob)

/-- A pattern for directories takes a proper part of the path, or the path of a directory. -/
def Covers (pattern : IgnorePattern) (path : List (List Char)) (isDir : Bool) (count : Nat) : Prop :=
  pattern.directoryOnly = false ∨ count < path.length ∨ isDir = true

/-- With globs read so: a single glob takes a segment anywhere, any other pattern a part of the path
from its start. -/
def PathTaken (pattern : IgnorePattern) (path : List (List Char)) (isDir : Bool) : Prop :=
  match pattern.segments with
  | [.glob glob] => ∃ index name, path[index]? = some name ∧ reads glob name ∧
      Covers pattern path isDir (index + 1)
  | segments => ∃ count, 1 ≤ count ∧ count ≤ path.length ∧
      Denotes (segments.map (segmentPiece reads)) (path.take count) ∧
      Covers pattern path isDir count

end Reading

def PathDenoted (pattern : IgnorePattern) (path : List (List Char)) (isDir : Bool) : Prop :=
  PathTaken GlobDenotes pattern path isDir

/-! ## The loop over a name -/

section Loop

variable {pattern text : List UInt8} {byte other : UInt8} {answer : Prop} {cursor : Cursor}

theorem pieceOf_accepts (plain : byte ≠ starByte) (taken : byte = markByte ∨ byte = other) :
    ∃ accepts, pieceOf byte = .one accepts ∧ accepts other := by
  rw [pieceOf, if_neg plain]
  split
  · exact ⟨_, rfl, trivial⟩
  · rename_i mark
    rcases taken with isMark | rfl
    · exact absurd isMark mark
    · exact ⟨_, rfl, rfl⟩

theorem pieceOf_refuses (plain : byte ≠ starByte) (refused : ¬(byte = markByte ∨ byte = other)) :
    ∃ accepts, pieceOf byte = .one accepts ∧ ¬accepts other := by
  rw [pieceOf, if_neg plain, if_neg fun isMark => refused (.inl isMark)]
  exact ⟨_, rfl, fun same => refused (.inr same.symm)⟩

theorem denotes_nil_iff :
    Denotes (pattern.map pieceOf) [] ↔ (pattern.dropWhile (· = starByte)).isEmpty = true := by
  induction pattern with
  | nil => exact ⟨fun _ => rfl, fun _ => rfl⟩
  | cons byte pattern induction =>
    rw [map_cons, dropWhile_cons]
    by_cases isStar : byte = starByte
    · rw [pieceOf, if_pos isStar, denotes_many_nil, if_pos (decide_eq_true isStar)]
      exact induction
    · rw [if_neg (by simpa using isStar)]
      rw [pieceOf, if_neg isStar]
      constructor
      · split
        · exact fun denotes => absurd denotes not_denotes_one_nil
        · exact fun denotes => absurd denotes not_denotes_one_nil
      · intro none
        cases none

theorem takes_iff (pi : pattern[cursor.pi]? = some byte) (ti : text[cursor.ti]? = some other) :
    takes pattern text cursor = true ↔ byte = markByte ∨ byte = other := by
  rw [takes, pi, ti]
  simp

theorem not_denotes_of_stuck {pi ti : Nat} {star : Option Nat} {starText : Nat}
    (inside : text[ti]? = some other) (refused : takes pattern text ⟨pi, ti, star, starText⟩ ≠ true)
    (plain : pattern[pi]? ≠ some starByte) :
    ¬Denotes ((pattern.drop pi).map pieceOf) (text.drop ti) := by
  rcases List.getElem?_eq_some_iff.mp inside with ⟨bound, here⟩
  rw [drop_eq_getElem_cons bound, here]
  cases next : pattern[pi]? with
  | none =>
    rw [drop_eq_nil_of_le (getElem?_eq_none_iff.mp next)]
    intro empty
    cases empty
  | some byte =>
    rcases List.getElem?_eq_some_iff.mp next with ⟨within, isByte⟩
    rw [drop_eq_getElem_cons within, isByte, map_cons]
    have isPlain : byte ≠ starByte := fun isStar => plain (isStar ▸ next)
    have refusal : ¬(byte = markByte ∨ byte = other) := fun taken =>
      refused ((@takes_iff pattern text byte other ⟨pi, ti, star, starText⟩ next inside).mpr taken)
    rcases pieceOf_refuses isPlain refusal with ⟨accepts, isOne, unaccepted⟩
    rw [isOne, denotes_one_cons]
    exact fun both => unaccepted both.1

/-- What the loop keeps: which question is left to answer. A star and a byte of the name that is a
star do not come together. -/
inductive Follows (pattern text : List UInt8) (answer : Prop) : Cursor → Prop where
  | before {pi ti starText : Nat} (piLe : pi ≤ pattern.length) (tiLe : ti ≤ text.length)
      (started : starText ≤ ti) (plain : starByte ∉ text ∨ starByte ∉ pattern.drop pi)
      (same : answer ↔ Denotes ((pattern.drop pi).map pieceOf) (text.drop ti)) :
      Follows pattern text answer ⟨pi, ti, none, starText⟩
  | after {index count starText : Nat} (piLe : index + 1 + count ≤ pattern.length)
      (tiLe : starText + count ≤ text.length) (plain : starByte ∉ text)
      (same : answer ↔
        Denotes (.many :: (pattern.drop (index + 1)).map pieceOf) (text.drop starText))
      (aligned : Aligned (((pattern.drop (index + 1)).take count).map pieceOf)
        ((text.drop starText).take count)) :
      Follows pattern text answer ⟨index + 1 + count, starText + count, some index, starText⟩

theorem drop_split {α : Type} (list : List α) (start count : Nat) :
    list.drop start = (list.drop start).take count ++ list.drop (start + count) := by
  rw [← drop_drop, take_append_drop]

section

variable (follows : Follows pattern text answer cursor)

include follows

theorem Follows.take
    (pi : pattern[cursor.pi]? = some byte) (ti : text[cursor.ti]? = some other)
    (taken : byte = markByte ∨ byte = other) :
    Follows pattern text answer { cursor with pi := cursor.pi + 1, ti := cursor.ti + 1 } := by
  rcases List.getElem?_eq_some_iff.mp pi with ⟨within, isByte⟩
  rcases List.getElem?_eq_some_iff.mp ti with ⟨bound, isOther⟩
  have atOther : other ∈ text := mem_of_getElem? ti
  cases follows with
  | @before pi ti starText piLe tiLe started plain same =>
    dsimp only at within isByte bound isOther
    have isPlain : byte ≠ starByte := by
      rintro rfl
      rcases plain with unstarred | unstarred
      · rcases taken with mark | rfl
        · cases mark
        · exact unstarred atOther
      · apply unstarred
        rw [drop_eq_getElem_cons within, isByte]
        exact .head _
    rcases pieceOf_accepts isPlain taken with ⟨accepts, isOne, accepted⟩
    rw [drop_eq_getElem_cons within, drop_eq_getElem_cons bound, isByte, isOther,
      map_cons, isOne, denotes_one_cons] at same
    refine .before within bound (Nat.le_succ_of_le started) ?_ ?_
    · rcases plain with unstarred | unstarred
      · exact .inl unstarred
      · exact .inr fun starred => unstarred ((drop_subset_drop_left _ (Nat.le_succ _)) starred)
    · rw [same]
      exact ⟨And.right, fun denotes => ⟨accepted, denotes⟩⟩
  | @after index count starText piLe tiLe plain same aligned =>
    dsimp only at within isByte bound isOther
    have isPlain : byte ≠ starByte := by
      rintro rfl
      rcases taken with mark | rfl
      · cases mark
      · exact plain atOther
    rcases pieceOf_accepts isPlain taken with ⟨accepts, isOne, accepted⟩
    have longer := aligned.concat isOne accepted
    apply @Follows.after pattern text answer index (count + 1) starText within bound plain same
    have behind : (pattern.drop (index + 1))[count]? = some byte := by
      rw [getElem?_drop]
      exact pi
    have beyond : (text.drop starText)[count]? = some other := by
      rw [getElem?_drop]
      exact ti
    rw [take_add_one, behind, map_append, take_add_one, beyond]
    exact longer

theorem Follows.star
    (pi : pattern[cursor.pi]? = some starByte) (ti : cursor.ti < text.length) :
    Follows pattern text answer
      { cursor with star := some cursor.pi, pi := cursor.pi + 1, starText := cursor.ti } := by
  rcases List.getElem?_eq_some_iff.mp pi with ⟨within, isStar⟩
  have piece : pieceOf starByte = .many := rfl
  cases follows with
  | @before pi ti starText piLe tiLe started plain same =>
    dsimp only at within isStar ti
    rw [drop_eq_getElem_cons within, isStar, map_cons, piece] at same
    have plainText : starByte ∉ text := by
      rcases plain with unstarred | unstarred
      · exact unstarred
      · rw [drop_eq_getElem_cons within, isStar] at unstarred
        exact absurd mem_cons_self unstarred
    exact @Follows.after pattern text answer _ 0 _ within tiLe plainText same .nil
  | @after index count starText piLe tiLe plain same aligned =>
    dsimp only at within isStar ti
    apply @Follows.after pattern text answer (index + 1 + count) 0 (starText + count) within tiLe
      plain _ .nil
    rw [same, drop_split pattern (index + 1) count, drop_split text starText count,
      drop_eq_getElem_cons within, isStar, map_append, map_cons, piece]
    exact aligned.denotes_many_many

theorem Follows.retry {index : Nat}
    (ti : cursor.ti < text.length) (refused : takes pattern text cursor ≠ true)
    (plain : pattern[cursor.pi]? ≠ some starByte) (starred : cursor.star = some index) :
    Follows pattern text answer
      { cursor with
        pi := index + 1
        starText := cursor.starText + 1
        ti := cursor.starText + 1 } := by
  cases follows with
  | before => cases starred
  | @after index count starText piLe tiLe plainText same aligned =>
    cases starred
    dsimp only at ti refused plain
    have inside : starText < text.length := by omega
    have stuck := not_denotes_of_stuck (getElem?_eq_getElem ti) refused plain
    apply @Follows.after pattern text answer index 0 (starText + 1) (by omega) inside plainText _
      .nil
    rw [same, drop_eq_getElem_cons inside, denotes_many_cons]
    constructor
    · rintro (denotes | later)
      · rw [← drop_eq_getElem_cons inside, drop_split text starText count,
          drop_split pattern (index + 1) count, map_append,
          aligned.denotes_append] at denotes
        exact absurd denotes stuck
      · exact later
    · exact .inr

theorem Follows.ended
    (ti : ¬cursor.ti < text.length) :
    answer ↔ ((pattern.drop cursor.pi).dropWhile (· = starByte)).isEmpty = true := by
  cases follows with
  | @before pi ti starText piLe tiLe started plain same =>
    rw [same, drop_eq_nil_of_le (Nat.le_of_not_lt ti)]
    exact denotes_nil_iff
  | @after index count starText piLe tiLe plain same aligned =>
    dsimp only at ti
    rw [same, drop_split pattern (index + 1) count, drop_split text starText count,
      drop_eq_nil_of_le (Nat.le_of_not_lt ti), append_nil, map_append,
      aligned.denotes_many_end]
    exact denotes_nil_iff

theorem Follows.mismatch
    (ti : cursor.ti < text.length) (refused : takes pattern text cursor ≠ true)
    (plain : pattern[cursor.pi]? ≠ some starByte) (unstarred : cursor.star = none) : ¬answer := by
  cases follows with
  | before _ _ _ _ same =>
    rw [same]
    exact not_denotes_of_stuck (getElem?_eq_getElem ti) refused plain
  | after => cases unstarred

end

/-- How many turns are left at most: each retry moves the start of the text on. -/
def turnsLeft (pattern text : List UInt8) (cursor : Cursor) : Nat :=
  (text.length - cursor.starText) * (text.length + pattern.length + 1) +
    (text.length - cursor.ti) + (pattern.length - cursor.pi)

theorem Follows.bounds (follows : Follows pattern text answer cursor) :
    cursor.pi ≤ pattern.length ∧ cursor.starText ≤ cursor.ti := by
  cases follows with
  | before piLe _ started _ _ => exact ⟨piLe, started⟩
  | after piLe _ _ _ _ => exact ⟨piLe, Nat.le_add_right _ _⟩

theorem turnsLeft_retry {pi : Nat} {star : Option Nat} (started : cursor.starText ≤ cursor.ti)
    (ti : cursor.ti < text.length) :
    turnsLeft pattern text ⟨pi, cursor.starText + 1, star, cursor.starText + 1⟩ <
      turnsLeft pattern text cursor := by
  rw [turnsLeft, turnsLeft]
  have split : text.length - cursor.starText = text.length - (cursor.starText + 1) + 1 := by omega
  rw [split, Nat.add_mul]
  dsimp only
  omega

theorem turnsLeft_star (started : cursor.starText ≤ cursor.ti) (within : cursor.pi < pattern.length) :
    turnsLeft pattern text
        { cursor with star := some cursor.pi, pi := cursor.pi + 1, starText := cursor.ti } <
      turnsLeft pattern text cursor := by
  rw [turnsLeft, turnsLeft]
  have fewer : (text.length - cursor.ti) * (text.length + pattern.length + 1) ≤
      (text.length - cursor.starText) * (text.length + pattern.length + 1) :=
    Nat.mul_le_mul_right _ (by omega)
  dsimp only
  omega

theorem scan_decides {turns : Nat} (follows : Follows pattern text answer cursor)
    (enough : turnsLeft pattern text cursor < turns) :
    (∃ pi, scan pattern text turns cursor = .ended pi ∧
        (answer ↔ ((pattern.drop pi).dropWhile (· = starByte)).isEmpty = true)) ∨
      (scan pattern text turns cursor = .mismatch ∧ ¬answer) := by
  induction turns generalizing cursor with
  | zero => exact absurd enough (Nat.not_lt_zero _)
  | succ turns induction =>
    rcases follows.bounds with ⟨piLe, started⟩
    rw [scan]
    by_cases ti : cursor.ti < text.length
    · rw [if_pos ti]
      by_cases taken : takes pattern text cursor = true
      · rw [if_pos taken]
        have within : cursor.pi < pattern.length := by
          by_contra outside
          rw [takes, getElem?_eq_none_iff.mpr (Nat.le_of_not_lt outside)] at taken
          cases taken
        have pi := getElem?_eq_getElem within
        have inside := getElem?_eq_getElem ti
        apply induction (follows.take pi inside ((takes_iff pi inside).mp taken))
        rw [turnsLeft] at enough ⊢
        dsimp only
        omega
      · rw [if_neg taken]
        by_cases isStar : pattern[cursor.pi]? = some starByte
        · rw [if_pos isStar]
          have within := (List.getElem?_eq_some_iff.mp isStar).1
          apply induction (follows.star isStar ti)
          exact Nat.lt_of_lt_of_le (turnsLeft_star started within) (Nat.le_of_lt_succ enough)
        · rw [if_neg isStar]
          cases starred : cursor.star with
          | none => exact .inr ⟨rfl, follows.mismatch ti taken isStar starred⟩
          | some index =>
            have again := follows.retry ti taken isStar starred
            rw [starred] at again
            apply induction again
            exact Nat.lt_of_lt_of_le (turnsLeft_retry started ti) (Nat.le_of_lt_succ enough)
    · rw [if_neg ti]
      exact .inl ⟨cursor.pi, rfl, follows.ended ti⟩

theorem scan_agree {taken items rest tail : List UInt8} {pi ti turns : Nat}
    (agree : List.Forall₂ (fun byte item => byte = markByte ∨ byte = item) taken items)
    (isPattern : pattern.drop pi = taken ++ rest) (isText : text.drop ti = items ++ tail) :
    scan pattern text (turns + taken.length) ⟨pi, ti, none, 0⟩ =
      scan pattern text turns ⟨pi + taken.length, ti + taken.length, none, 0⟩ := by
  induction agree generalizing pi ti with
  | nil => rfl
  | @cons byte item taken items accepted _ induction =>
    have atPi : pattern[pi]? = some byte := by
      rw [← head?_drop, isPattern]
      rfl
    have atTi : text[ti]? = some item := by
      rw [← head?_drop, isText]
      rfl
    have isTaken : takes pattern text ⟨pi, ti, none, 0⟩ = true :=
      (@takes_iff pattern text byte item ⟨pi, ti, none, 0⟩ atPi atTi).mpr accepted
    rw [length_cons, ← Nat.add_assoc, scan, if_pos (List.getElem?_eq_some_iff.mp atTi).1,
      if_pos isTaken]
    dsimp only
    rw [induction]
    · rw [Nat.add_right_comm pi, Nat.add_right_comm ti]
      rfl
    · rw [← drop_drop, isPattern]
      rfl
    · rw [← drop_drop, isText]
      rfl

theorem lt_scanTurns (count : Nat) (patternLe : count ≤ pattern.length) (textLe : count ≤ text.length) :
    ∃ turns, scanTurns pattern text = turns + count ∧
      turnsLeft pattern text ⟨count, count, none, 0⟩ < turns := by
  refine ⟨scanTurns pattern text - count, ?_⟩
  have expand : scanTurns pattern text =
      text.length * (text.length + pattern.length + 1) + text.length +
        (text.length + pattern.length + 2) := by
    rw [scanTurns, Nat.add_mul, Nat.mul_succ, Nat.one_mul]
  rw [turnsLeft, Nat.sub_zero]
  dsimp only
  omega

end Loop

section Names

variable {glob name : List Char}

/-- What is left of the pattern, after bytes that agree with those of the name, is read as it is
meant when it or the name has no star. -/
theorem segmentMatches_of_agree {taken items rest tail : List UInt8}
    (agree : List.Forall₂ (fun byte item => byte = markByte ∨ byte = item) taken items)
    (isGlob : bytes glob = taken ++ rest) (isName : bytes name = items ++ tail)
    (plain : starByte ∉ bytes name ∨ starByte ∉ rest) :
    segmentMatches glob name = true ↔ Denotes (rest.map pieceOf) tail := by
  have sameLength := agree.length_eq
  have patternLe : taken.length ≤ (bytes glob).length := by
    rw [isGlob, length_append]
    exact Nat.le_add_right _ _
  have textLe : taken.length ≤ (bytes name).length := by
    rw [isName, length_append, sameLength]
    exact Nat.le_add_right _ _
  have globLeft : (bytes glob).drop taken.length = rest := by
    rw [isGlob, drop_left]
  have nameLeft : (bytes name).drop taken.length = tail := by
    rw [isName, sameLength, drop_left]
  have follows : Follows (bytes glob) (bytes name) (Denotes (rest.map pieceOf) tail)
      ⟨taken.length, taken.length, none, 0⟩ := by
    apply Follows.before patternLe textLe (Nat.zero_le _)
    · rw [globLeft]
      exact plain
    · rw [globLeft, nameLeft]
  rcases lt_scanTurns taken.length patternLe textLe with ⟨turns, isTurns, enough⟩
  have reached : scan (bytes glob) (bytes name) (turns + taken.length) ⟨0, 0, none, 0⟩ =
      scan (bytes glob) (bytes name) turns ⟨0 + taken.length, 0 + taken.length, none, 0⟩ :=
    scan_agree agree isGlob isName
  rw [Nat.zero_add] at reached
  rw [segmentMatches, isTurns, reached]
  rcases scan_decides follows enough with ⟨pi, ended, same⟩ | ⟨mismatch, unanswered⟩
  · rw [ended]
    exact same.symm
  · rw [mismatch]
    exact ⟨fun absurdly => absurd absurdly Bool.false_ne_true, fun denotes => absurd denotes unanswered⟩

theorem segmentMatches_iff (plain : starByte ∉ bytes name ∨ starByte ∉ bytes glob) :
    segmentMatches glob name = true ↔ GlobDenotes glob name :=
  segmentMatches_of_agree .nil rfl rfl plain

theorem length_of_denotes {pattern text : List UInt8} (plain : starByte ∉ pattern)
    (denotes : Denotes (pattern.map pieceOf) text) : text.length = pattern.length := by
  induction pattern generalizing text with
  | nil =>
    cases denotes
    rfl
  | cons byte pattern induction =>
    rw [mem_cons, not_or] at plain
    rw [map_cons, pieceOf, if_neg (Ne.symm plain.1)] at denotes
    split at denotes
    · rcases denotes with ⟨_, tail, rfl, _, further⟩
      rw [length_cons, length_cons, induction plain.2 further]
    · rcases denotes with ⟨_, tail, rfl, _, further⟩
      rw [length_cons, length_cons, induction plain.2 further]

end Names

end Yadorilink.Ignore
