import Yadorilink.Foundation.FileBytes

/-! Writing a group of records to a segment file in vectored positional writes, resumed after
each short write. -/

namespace Yadorilink.Segments

open FileBytes List

abbrev Bytes := List UInt8

/-- Buffer segments one vectored write call carries at most. A platform without a vectored
positional write carries one. -/
def maxWriteSegments : Nat := 1020

/-- What one call offers to the file: the first `segments` of the buffers. -/
def offered (segments : Nat) (slices : List Bytes) : Bytes :=
  (slices.take segments).flatten

/-- The state of the loop, with the file it writes to and the writes it has made. -/
structure WriteLoop where
  slices : List Bytes
  cursor : Nat
  offset : Nat
  file : Bytes
  writes : List (Nat × Bytes)
  deriving DecidableEq

/-- How many buffers a count of written bytes covers whole, and what is left of the count. -/
def passWhole : List Bytes → Nat → Nat × Nat
  | [], remaining => (0, remaining)
  | slice :: rest, remaining =>
    if slice.length ≤ remaining then
      let passed := passWhole rest (remaining - slice.length)
      (passed.1 + 1, passed.2)
    else (0, remaining)

/-- One turn of the loop after a call that wrote `written` bytes. A buffer cut by the write is
replaced by the rest of the piece it was made from. -/
def WriteLoop.resume (segments : Nat) (pieces : List Bytes) (loop : WriteLoop) (written : Nat) :
    WriteLoop :=
  let landed := (offered segments (loop.slices.drop loop.cursor)).take written
  let passed := passWhole (loop.slices.drop loop.cursor) written
  let cursor := loop.cursor + passed.1
  { slices :=
      if 0 < passed.2 ∧ cursor < loop.slices.length then
        loop.slices.set cursor ((pieces.getD cursor []).drop passed.2)
      else loop.slices
    cursor := cursor
    offset := loop.offset + written
    file := writeAt 0 loop.file loop.offset landed
    writes := loop.writes ++ [(loop.offset, landed)] }

/-- How the loop ends. It stays `unanswered` while a call has not returned; a call that returns
an error ends it there with that error. -/
inductive WriteOutcome where
  | ok
  | writeZero
  | unanswered
  deriving DecidableEq, Repr

def writeLoop (segments : Nat) (pieces : List Bytes) :
    List Nat → WriteLoop → WriteOutcome × WriteLoop
  | [], loop => (if loop.cursor < loop.slices.length then .unanswered else .ok, loop)
  | written :: results, loop =>
    if loop.cursor < loop.slices.length then
      if written = 0 then (.writeZero, loop)
      else writeLoop segments pieces results (loop.resume segments pieces written)
    else (.ok, loop)

/-- The buffers a write starts from: the empty ones are left out. -/
def nonemptyPieces (pieces : List Bytes) : List Bytes :=
  pieces.filter fun piece => !piece.isEmpty

def startLoop (file : Bytes) (pieces : List Bytes) (offset : Nat) : WriteLoop :=
  { slices := nonemptyPieces pieces, cursor := 0, offset := offset, file := file, writes := [] }

/-- Writes every piece, in order, starting at `offset`; `results` are what the calls return. -/
def writeAllVectoredAt (segments : Nat) (file : Bytes) (pieces : List Bytes) (offset : Nat)
    (results : List Nat) : WriteOutcome × WriteLoop :=
  writeLoop segments (nonemptyPieces pieces) results (startLoop file pieces offset)

/-- The results are those of calls that succeed: each writes at least one byte and at most what
it was offered. -/
def Answers (segments : Nat) (pieces : List Bytes) : List Nat → WriteLoop → Prop
  | [], _ => True
  | written :: results, loop =>
    loop.cursor < loop.slices.length →
      0 < written ∧ written ≤ (offered segments (loop.slices.drop loop.cursor)).length ∧
        Answers segments pieces results (loop.resume segments pieces written)

instance Answers.decidable (segments : Nat) (pieces : List Bytes) :
    (results : List Nat) → (loop : WriteLoop) → Decidable (Answers segments pieces results loop)
  | [], _ => .isTrue trivial
  | written :: results, loop =>
    have := Answers.decidable segments pieces results (loop.resume segments pieces written)
    inferInstanceAs (Decidable (_ → _ ∧ _ ∧ _))

/-! ## Where results cut the pieces -/

def InsideOne : List Bytes → Nat → Nat → Prop
  | [], _, _ => False
  | piece :: rest, low, high =>
    (0 < low ∧ high < piece.length) ∨
      (piece.length ≤ low ∧ InsideOne rest (low - piece.length) (high - piece.length))

instance InsideOne.decidable :
    (pieces : List Bytes) → (low high : Nat) → Decidable (InsideOne pieces low high)
  | [], _, _ => .isFalse not_false
  | piece :: rest, low, high =>
    have := InsideOne.decidable rest (low - piece.length) (high - piece.length)
    inferInstanceAs (Decidable (_ ∧ _ ∨ _ ∧ _))

/-- A write ends inside a piece and so does the next one, inside the same piece. -/
def CutTwice (pieces : List Bytes) : Nat → List Nat → Prop
  | _, [] => False
  | position, written :: results =>
    InsideOne pieces position (position + written) ∨ CutTwice pieces (position + written) results

instance CutTwice.decidable (pieces : List Bytes) :
    (position : Nat) → (results : List Nat) → Decidable (CutTwice pieces position results)
  | _, [] => .isFalse not_false
  | position, written :: results =>
    have := CutTwice.decidable pieces (position + written) results
    inferInstanceAs (Decidable (_ ∨ _))

theorem insideOne_nonemptyPieces (pieces : List Bytes) (low high : Nat) :
    InsideOne (nonemptyPieces pieces) low high ↔ InsideOne pieces low high := by
  induction pieces generalizing low high with
  | nil => exact Iff.rfl
  | cons piece rest induction =>
    cases piece with
    | nil =>
      have skipped : nonemptyPieces ([] :: rest) = nonemptyPieces rest := rfl
      rw [skipped, induction, InsideOne]
      simp
    | cons byte bytes =>
      have kept : nonemptyPieces ((byte :: bytes) :: rest) =
          (byte :: bytes) :: nonemptyPieces rest := rfl
      rw [kept, InsideOne, InsideOne, induction]

theorem cutTwice_nonemptyPieces (pieces : List Bytes) (position : Nat) (results : List Nat) :
    CutTwice (nonemptyPieces pieces) position results ↔ CutTwice pieces position results := by
  induction results generalizing position with
  | nil => exact Iff.rfl
  | cons written results induction =>
    rw [CutTwice, CutTwice, insideOne_nonemptyPieces, induction]

theorem flatten_nonemptyPieces (pieces : List Bytes) :
    (nonemptyPieces pieces).flatten = pieces.flatten :=
  flatten_filter_not_isEmpty

/-! ## What one turn of the loop does -/

theorem passWhole_sum (slices : List Bytes) (written : Nat) :
    (slices.take (passWhole slices written).1).flatten.length + (passWhole slices written).2 =
      written := by
  induction slices generalizing written with
  | nil => exact Nat.zero_add written
  | cons slice rest induction =>
    rw [passWhole]
    split
    · rename_i whole
      have tail := induction (written - slice.length)
      simp only [take_succ_cons, flatten_cons, length_append]
      omega
    · exact Nat.zero_add written

theorem passWhole_le_length (slices : List Bytes) (written : Nat) :
    (passWhole slices written).1 ≤ slices.length := by
  induction slices generalizing written with
  | nil => exact Nat.le_refl 0
  | cons slice rest induction =>
    rw [passWhole]
    split
    · exact Nat.succ_le_succ (induction _)
    · exact Nat.zero_le _

theorem passWhole_lt {slices : List Bytes} {written : Nat} {slice : Bytes}
    (stopped : slices[(passWhole slices written).1]? = some slice) :
    (passWhole slices written).2 < slice.length := by
  induction slices generalizing written with
  | nil => cases stopped
  | cons head rest induction =>
    rw [passWhole] at stopped ⊢
    split at stopped
    · rename_i whole
      rw [if_pos whole]
      exact induction stopped
    · rename_i cut
      rw [if_neg cut]
      cases stopped
      exact Nat.lt_of_not_le cut

/-- How far a write reaches when all that is still pending follows at its offset. -/
def WriteLoop.reach (loop : WriteLoop) : Nat :=
  loop.offset + (loop.slices.drop loop.cursor).flatten.length

/-- Each buffer is what is left of a piece. -/
structure Sized (pieces : List Bytes) (loop : WriteLoop) : Prop where
  length : loop.slices.length = pieces.length
  fits : ∀ index slice, loop.slices[index]? = some slice →
    slice.length ≤ (pieces.getD index []).length

variable {segments written : Nat} {pieces : List Bytes} {loop : WriteLoop}

theorem Sized.resume (sized : Sized pieces loop) :
    Sized pieces (loop.resume segments pieces written) := by
  constructor
  · rw [WriteLoop.resume]
    dsimp only
    split
    · rw [length_set, sized.length]
    · exact sized.length
  · intro index slice found
    rw [WriteLoop.resume] at found
    dsimp only at found
    split at found
    · rw [getElem?_set] at found
      split at found
      · rename_i here
        rw [← here]
        split at found
        · cases found
          exact length_drop ▸ Nat.sub_le _ _
        · cases found
      · exact sized.fits index slice found
    · exact sized.fits index slice found

theorem drop_passed (slices : List Bytes) (passed : Nat) :
    (slices.take passed).flatten.length + (slices.drop passed).flatten.length =
      slices.flatten.length := by
  rw [← length_append, ← flatten_append, take_append_drop]

theorem drop_set_same {slices : List Bytes} {index : Nat} (within : index < slices.length)
    (slice : Bytes) : (slices.set index slice).drop index = slice :: slices.drop (index + 1) := by
  rw [drop_eq_getElem_cons (by rw [length_set]; exact within), getElem_set_self,
    drop_set_of_lt (Nat.lt_succ_self index)]

theorem Sized.reach_le_resume (sized : Sized pieces loop) :
    loop.reach ≤ (loop.resume segments pieces written).reach := by
  have sum := passWhole_sum (loop.slices.drop loop.cursor) written
  have parts := drop_passed (loop.slices.drop loop.cursor)
    (passWhole (loop.slices.drop loop.cursor) written).1
  rw [drop_drop] at parts
  rw [WriteLoop.reach, WriteLoop.reach, WriteLoop.resume]
  dsimp only
  split
  · rename_i cut
    have fits := sized.fits _ _ (getElem?_eq_getElem cut.2)
    rw [drop_set_same cut.2]
    rw [drop_eq_getElem_cons cut.2] at parts
    simp only [flatten_cons, length_append, length_drop] at parts ⊢
    omega
  · rename_i whole
    rcases Nat.eq_zero_or_pos (passWhole (loop.slices.drop loop.cursor) written).2 with
      none | some
    · omega
    · have past : loop.slices.length ≤
          loop.cursor + (passWhole (loop.slices.drop loop.cursor) written).1 := by
        omega
      rw [drop_eq_nil_of_le past, flatten_nil, length_nil] at parts ⊢
      omega

/-! ## Resuming where the file stopped -/

/-- A list of buffers whose first one has lost its first bytes. -/
def cutHead : List Bytes → Nat → List Bytes
  | [], _ => []
  | piece :: rest, cut => piece.drop cut :: rest

/-- The loop stands `cut` bytes into the first of the pieces `rest`, with all before it in the
file. -/
structure Resumed (pieces : List Bytes) (start : Nat) (file : Bytes) (done rest : List Bytes)
    (cut : Nat) (loop : WriteLoop) : Prop where
  split : pieces = done ++ rest
  inside : cut ≤ (rest.headD []).length
  short : rest ≠ [] → cut < (rest.headD []).length
  cursor : loop.cursor = done.length
  pending : loop.slices.drop loop.cursor = cutHead rest cut
  offset : loop.offset = start + (done.flatten.length + cut)
  written : loop.file = writeAt 0 file start (pieces.flatten.take (done.flatten.length + cut))
  within : ∀ write ∈ loop.writes,
    start ≤ write.1 ∧ write.1 + write.2.length ≤ start + (done.flatten.length + cut)

theorem flatten_cutHead {rest : List Bytes} {cut : Nat} (inside : cut ≤ (rest.headD []).length) :
    (cutHead rest cut).flatten = rest.flatten.drop cut := by
  cases rest with
  | nil => exact drop_nil.symm
  | cons piece rest =>
    have front : cut ≤ piece.length := inside
    rw [cutHead, flatten_cons, flatten_cons, drop_append_of_le_length front]

theorem length_cutHead (rest : List Bytes) (cut : Nat) : (cutHead rest cut).length = rest.length := by
  cases rest with
  | nil => rfl
  | cons piece rest => rfl

theorem cutHead_zero (rest : List Bytes) : cutHead rest 0 = rest := by
  cases rest with
  | nil => rfl
  | cons piece rest => rfl

theorem take_offered {slices : List Bytes} (most : written ≤ (offered segments slices).length) :
    (offered segments slices).take written = slices.flatten.take written := by
  have whole : slices.flatten = offered segments slices ++ (slices.drop segments).flatten := by
    rw [offered, ← flatten_append, take_append_drop]
  rw [whole, take_append_of_le_length most]

variable {start : Nat} {file : Bytes} {done rest : List Bytes} {cut : Nat}

theorem Resumed.position_le (resumed : Resumed pieces start file done rest cut loop) :
    done.flatten.length + cut ≤ pieces.flatten.length := by
  have inside := resumed.inside
  rw [resumed.split, flatten_append, length_append]
  cases rest with
  | nil => exact Nat.add_le_add_left inside _
  | cons piece rest =>
    have inside : cut ≤ piece.length := inside
    rw [flatten_cons, length_append]
    omega

theorem Resumed.flatten_pending (resumed : Resumed pieces start file done rest cut loop) :
    (loop.slices.drop loop.cursor).flatten = pieces.flatten.drop (done.flatten.length + cut) := by
  rw [resumed.pending, flatten_cutHead resumed.inside, resumed.split, flatten_append,
    ← drop_drop, drop_left]

/-- Passing whole buffers from a cut list counts from the start of the piece that is cut, unless
the write ends inside that piece again. -/
theorem passWhole_cutHead (inside : cut ≤ (rest.headD []).length)
    (once : ¬(0 < cut ∧ cut + written < (rest.headD []).length)) :
    (cutHead rest cut).drop (passWhole (cutHead rest cut) written).1 =
        rest.drop (passWhole (cutHead rest cut) written).1 ∧
      (rest.take (passWhole (cutHead rest cut) written).1).flatten.length +
        (passWhole (cutHead rest cut) written).2 = cut + written := by
  have sum := passWhole_sum (cutHead rest cut) written
  cases rest with
  | nil =>
    have uncut : cut = 0 := Nat.le_zero.mp inside
    rw [uncut, Nat.zero_add]
    exact ⟨rfl, sum⟩
  | cons piece rest =>
    have inside : cut ≤ piece.length := inside
    have once : ¬(0 < cut ∧ cut + written < piece.length) := once
    rw [cutHead, passWhole] at sum ⊢
    rw [length_drop] at sum ⊢
    split at sum
    · rename_i whole
      rw [if_pos whole]
      simp only [take_succ_cons, drop_succ_cons, flatten_cons,
        length_append, length_drop] at sum ⊢
      exact ⟨trivial, by omega⟩
    · rename_i short
      have uncut : cut = 0 := by omega
      rw [if_neg short, uncut, Nat.zero_add]
      exact ⟨rfl, sum⟩

theorem passWhole_all {slices : List Bytes} (most : written ≤ (offered segments slices).length)
    (all : slices.drop (passWhole slices written).1 = []) :
    (passWhole slices written).2 = 0 := by
  have sum := passWhole_sum slices written
  have parts := drop_passed slices (passWhole slices written).1
  have bound := drop_passed slices segments
  rw [all, flatten_nil, length_nil] at parts
  rw [offered] at most
  omega

theorem Resumed.resume (resumed : Resumed pieces start file done rest cut loop)
    (most : written ≤ (offered segments (loop.slices.drop loop.cursor)).length)
    (once : ¬(0 < cut ∧ cut + written < (rest.headD []).length)) :
    ∃ done' rest' cut', Resumed pieces start file done' rest' cut'
        (loop.resume segments pieces written) ∧
      done'.flatten.length + cut' = done.flatten.length + cut + written := by
  rcases passWhole_cutHead resumed.inside once with ⟨behind, sum⟩
  rw [← resumed.pending] at behind sum
  have stopped := fun slice => @passWhole_lt (loop.slices.drop loop.cursor) written slice
  have all := passWhole_all most
  have landed := take_offered most
  have landedLength : ((loop.slices.drop loop.cursor).flatten.take written).length = written := by
    rw [← landed, length_take]
    omega
  have passedMost := passWhole_le_length (loop.slices.drop loop.cursor) written
  generalize passedIs : passWhole (loop.slices.drop loop.cursor) written = passed
    at behind sum stopped all passedMost
  have size : (done ++ rest.take passed.1).flatten.length + passed.2 =
      done.flatten.length + cut + written := by
    rw [flatten_append, length_append]
    omega
  have short : rest.drop passed.1 ≠ [] → passed.2 < ((rest.drop passed.1).headD []).length := by
    intro more
    obtain ⟨piece, tail, next⟩ := exists_cons_of_ne_nil more
    apply stopped
    rw [← head?_drop, behind, next]
    rfl
  have inside : passed.2 ≤ ((rest.drop passed.1).headD []).length := by
    by_cases finished : rest.drop passed.1 = []
    · rw [all (behind.trans finished)]
      exact Nat.zero_le _
    · exact Nat.le_of_lt (short finished)
  have pendingNext : (loop.resume segments pieces written).slices.drop
      (loop.resume segments pieces written).cursor = cutHead (rest.drop passed.1) passed.2 := by
    rw [WriteLoop.resume]
    dsimp only
    rw [passedIs]
    have tail : loop.slices.drop (loop.cursor + passed.1) = rest.drop passed.1 := by
      rw [← drop_drop]
      exact behind
    split
    · rename_i again
      rw [drop_set_same again.2]
      rw [drop_eq_getElem_cons again.2] at tail
      have named : pieces.getD (loop.cursor + passed.1) [] = (rest.drop passed.1).headD [] := by
        rw [resumed.split, resumed.cursor, getD_eq_getElem?_getD,
          getElem?_append_right (Nat.le_add_right _ _), Nat.add_sub_cancel_left,
          headD_eq_head?_getD, head?_drop]
      rw [named, ← tail]
      rfl
    · rename_i whole
      rw [tail]
      rcases Nat.eq_zero_or_pos passed.2 with uncut | some
      · rw [uncut, cutHead_zero]
      · have past : loop.slices.length ≤ loop.cursor + passed.1 := by
          omega
        rw [drop_eq_nil_of_le past] at tail
        rw [← tail]
        rfl
  refine ⟨done ++ rest.take passed.1, rest.drop passed.1, passed.2, ?_, size⟩
  exact {
    split := by
      rw [append_assoc, take_append_drop]
      exact resumed.split
    inside := inside
    short := short
    cursor := by
      rw [WriteLoop.resume]
      dsimp only
      rw [resumed.pending, length_cutHead] at passedMost
      rw [passedIs, resumed.cursor, length_append, length_take_of_le passedMost]
    pending := pendingNext
    offset := by
      rw [size, ← Nat.add_assoc, ← resumed.offset]
      rfl
    written := by
      change writeAt 0 loop.file loop.offset _ = _
      have grown : pieces.flatten.take (done.flatten.length + cut + written) =
          pieces.flatten.take (done.flatten.length + cut) ++
            (pieces.flatten.drop (done.flatten.length + cut)).take written := take_add
      rw [landed, resumed.flatten_pending, resumed.offset, resumed.written, size, grown,
        ← writeAt_writeAt, length_take_of_le resumed.position_le]
    within := by
      intro write made
      rcases mem_append.mp made with earlier | last
      · have old := resumed.within write earlier
        omega
      · rw [mem_singleton.mp last]
        dsimp only
        rw [landed, landedLength, resumed.offset]
        omega }

theorem not_insideOne_zero (pieces : List Bytes) (high : Nat) : ¬InsideOne pieces 0 high := by
  induction pieces generalizing high with
  | nil => exact not_false
  | cons piece rest induction =>
    rw [InsideOne, Nat.zero_sub]
    intro inside
    rcases inside with first | later
    · exact Nat.lt_irrefl 0 first.1
    · exact induction _ later.2

/-- Positions counted from a piece lie inside one piece exactly when they lie inside that one. -/
theorem insideOne_append {done rest : List Bytes} {low high : Nat} (ordered : low ≤ high)
    (inside : low ≤ (rest.headD []).length) :
    InsideOne (done ++ rest) (done.flatten.length + low) (done.flatten.length + high) ↔
      0 < low ∧ high < (rest.headD []).length := by
  induction done with
  | nil =>
    rw [nil_append, flatten_nil, length_nil, Nat.zero_add, Nat.zero_add]
    cases rest with
    | nil => exact ⟨False.elim, fun impossible => Nat.not_lt_zero _ impossible.2⟩
    | cons piece rest =>
      have inside : low ≤ piece.length := inside
      rw [InsideOne]
      apply or_iff_left
      intro later
      have same : low - piece.length = 0 := by omega
      rw [same] at later
      exact not_insideOne_zero rest _ later.2
  | cons piece done induction =>
    rw [cons_append, InsideOne, flatten_cons, length_append, Nat.add_assoc,
      Nat.add_assoc, Nat.add_sub_cancel_left, Nat.add_sub_cancel_left, induction]
    constructor
    · intro either
      rcases either with first | later
      · omega
      · exact later.2
    · intro both
      exact Or.inr ⟨Nat.le_add_right _ _, both⟩

/-! ## Whole runs -/

/-- A run that cuts no piece twice keeps resuming where the file stopped. It returns `Ok` with
all written, and else it has used up its results before the end. -/
theorem Resumed.writeLoop {results : List Nat} (sized : Sized pieces loop)
    (resumed : Resumed pieces start file done rest cut loop)
    (answers : Answers segments pieces results loop)
    (once : ¬CutTwice pieces (done.flatten.length + cut) results) :
    ∃ done' rest' cut', Resumed pieces start file done' rest' cut'
        (writeLoop segments pieces results loop).2 ∧
      (((writeLoop segments pieces results loop).1 = .ok ∧ rest' = []) ∨
        ((writeLoop segments pieces results loop).1 = .unanswered ∧ rest' ≠ [] ∧
          done'.flatten.length + cut' = done.flatten.length + cut + results.sum)) := by
  have pendingLength : loop.slices.length - loop.cursor = rest.length := by
    rw [← length_drop, resumed.pending, length_cutHead]
  induction results generalizing loop done rest cut with
  | nil =>
    refine ⟨done, rest, cut, resumed, ?_⟩
    rw [Segments.writeLoop]
    split
    · rename_i more
      refine Or.inr ⟨rfl, ?_, rfl⟩
      intro empty
      rw [empty, length_nil] at pendingLength
      omega
    · exact Or.inl ⟨rfl, length_eq_zero_iff.mp (by omega)⟩
  | cons written results induction =>
    rw [Segments.writeLoop]
    split
    · rename_i more
      rcases answers more with ⟨positive, most, later⟩
      rw [if_neg (Nat.ne_of_gt positive)]
      rw [CutTwice, resumed.split, Nat.add_assoc,
        insideOne_append (Nat.le_add_right cut written) resumed.inside, ← resumed.split] at once
      rcases not_or.mp once with ⟨onceHere, onceLater⟩
      obtain ⟨done', rest', cut', next, moved⟩ := resumed.resume most onceHere
      rw [← Nat.add_assoc, ← moved] at onceLater
      have ended := induction sized.resume next later onceLater
        (by rw [← length_drop, next.pending, length_cutHead])
      rw [sum_cons, ← Nat.add_assoc, ← moved]
      exact ended
    · exact ⟨done, rest, cut, resumed, Or.inl ⟨rfl, length_eq_zero_iff.mp (by omega)⟩⟩

def WriteLoop.Ended (loop : WriteLoop) : Prop :=
  ∃ write ∈ loop.writes, write.1 + write.2.length = loop.offset

theorem ended_resume (most : written ≤ (offered segments (loop.slices.drop loop.cursor)).length) :
    (loop.resume segments pieces written).Ended := by
  refine ⟨_, mem_append_right _ (.head _), ?_⟩
  dsimp only
  rw [length_take_of_le most]
  rfl

theorem Sized.reach_le_offset {results : List Nat} (sized : Sized pieces loop)
    (answers : Answers segments pieces results loop) (ended : loop.Ended)
    (returned : (writeLoop segments pieces results loop).1 = .ok) :
    loop.reach ≤ (writeLoop segments pieces results loop).2.offset ∧
      (writeLoop segments pieces results loop).2.Ended := by
  induction results generalizing loop with
  | nil =>
    rw [writeLoop] at returned ⊢
    split at returned
    · cases returned
    · rename_i finished
      rw [WriteLoop.reach, drop_eq_nil_of_le (Nat.le_of_not_lt finished)]
      exact ⟨Nat.le_refl _, ended⟩
  | cons written results induction =>
    rw [writeLoop] at returned ⊢
    split at returned
    · rename_i more
      rcases answers more with ⟨positive, most, later⟩
      rw [if_neg (Nat.ne_of_gt positive)] at returned
      rw [if_pos more, if_neg (Nat.ne_of_gt positive)]
      rcases induction sized.resume later (ended_resume most) returned with ⟨further, finished⟩
      exact ⟨Nat.le_trans sized.reach_le_resume further, finished⟩
    · rename_i finished
      rw [if_neg finished, WriteLoop.reach, drop_eq_nil_of_le (Nat.le_of_not_lt finished)]
      exact ⟨Nat.le_refl _, ended⟩

theorem lt_of_insideOne {pieces : List Bytes} {low high : Nat} (ordered : low ≤ high)
    (inside : InsideOne pieces low high) : low < pieces.flatten.length := by
  induction pieces generalizing low high with
  | nil => exact inside.elim
  | cons piece rest induction =>
    rw [flatten_cons, length_append]
    rcases inside with first | later
    · omega
    · have further := induction (Nat.sub_le_sub_right ordered piece.length) later.2
      omega

theorem not_cutTwice_of_le {position : Nat} (past : pieces.flatten.length ≤ position)
    (results : List Nat) : ¬CutTwice pieces position results := by
  induction results generalizing position with
  | nil => exact not_false
  | cons written results induction =>
    intro twice
    rcases twice with here | later
    · have before := lt_of_insideOne (Nat.le_add_right _ _) here
      omega
    · exact induction (Nat.le_trans past (Nat.le_add_right _ _)) later

/-- A piece cut a second time is taken up from its start: the bytes of the first cut are written
once more and all the rest lands that much too far. -/
theorem Resumed.reach_resume_of_twice (resumed : Resumed pieces start file done rest cut loop)
    (positive : 0 < written) (twice : 0 < cut ∧ cut + written < (rest.headD []).length) :
    (loop.resume segments pieces written).reach = start + pieces.flatten.length + cut := by
  have split := resumed.split
  have pending := resumed.pending
  cases rest with
  | nil => exact absurd twice.2 (Nat.not_lt_zero _)
  | cons piece tail =>
    have short : cut + written < piece.length := twice.2
    rw [cutHead] at pending
    have passed : passWhole (loop.slices.drop loop.cursor) written = (0, written) := by
      rw [pending, passWhole, length_drop]
      exact if_neg (by omega)
    have more : loop.cursor < loop.slices.length := by
      apply Nat.lt_of_not_le
      intro past
      rw [drop_eq_nil_of_le past] at pending
      cases pending
    have behind : loop.slices.drop (loop.cursor + 1) = tail := by
      rw [← drop_drop, pending]
      rfl
    have named : pieces.getD loop.cursor [] = piece := by
      rw [split, resumed.cursor, getD_eq_getElem?_getD,
        getElem?_append_right (Nat.le_refl _), Nat.sub_self]
      rfl
    rw [WriteLoop.reach, WriteLoop.resume]
    dsimp only
    rw [passed, if_pos ⟨positive, more⟩, Nat.add_zero, drop_set_same more, behind, named, split,
      resumed.offset]
    simp only [flatten_cons, flatten_append, length_append, length_drop]
    omega

/-- A run that cuts a piece twice and returns `Ok` has written past the end of the pieces. -/
theorem Resumed.overruns {results : List Nat} (sized : Sized pieces loop)
    (resumed : Resumed pieces start file done rest cut loop)
    (answers : Answers segments pieces results loop)
    (twice : CutTwice pieces (done.flatten.length + cut) results)
    (returned : (Segments.writeLoop segments pieces results loop).1 = .ok) :
    start + pieces.flatten.length < (Segments.writeLoop segments pieces results loop).2.offset ∧
      (Segments.writeLoop segments pieces results loop).2.Ended := by
  induction results generalizing loop done rest cut with
  | nil => exact twice.elim
  | cons written results induction =>
    rw [Segments.writeLoop] at returned ⊢
    split at returned
    · rename_i more
      rcases answers more with ⟨positive, most, later⟩
      rw [if_neg (Nat.ne_of_gt positive)] at returned
      rw [if_pos more, if_neg (Nat.ne_of_gt positive)]
      rw [CutTwice, resumed.split, Nat.add_assoc,
        insideOne_append (Nat.le_add_right cut written) resumed.inside, ← resumed.split] at twice
      by_cases here : 0 < cut ∧ cut + written < (rest.headD []).length
      · rcases sized.resume.reach_le_offset later (ended_resume most) returned with ⟨reached, finished⟩
        rw [resumed.reach_resume_of_twice positive here] at reached
        exact ⟨by omega, finished⟩
      · obtain ⟨done', rest', cut', next, moved⟩ := resumed.resume most here
        have twiceLater := twice.resolve_left here
        rw [← Nat.add_assoc, ← moved] at twiceLater
        exact induction sized.resume next later twiceLater returned
    · rename_i finished
      have past : pieces.flatten.length ≤ done.flatten.length + cut := by
        have empty : (loop.slices.drop loop.cursor).flatten = [] := by
          rw [drop_eq_nil_of_le (Nat.le_of_not_lt finished), flatten_nil]
        rw [resumed.flatten_pending] at empty
        exact drop_eq_nil_iff.mp empty
      exact absurd twice (not_cutTwice_of_le past _)

theorem sized_startLoop (file : Bytes) (pieces : List Bytes) (offset : Nat) :
    Sized (nonemptyPieces pieces) (startLoop file pieces offset) := by
  constructor
  · rfl
  · intro index slice found
    rw [getD_eq_getElem?_getD, show (nonemptyPieces pieces)[index]? = some slice from found]
    exact Nat.le_refl _

theorem resumed_startLoop (file : Bytes) (pieces : List Bytes) (offset : Nat) :
    Resumed (nonemptyPieces pieces) offset file [] (nonemptyPieces pieces) 0
      (startLoop file pieces offset) where
  split := rfl
  inside := Nat.zero_le _
  short := by
    intro more
    obtain ⟨piece, rest, next⟩ := exists_cons_of_ne_nil more
    have kept : piece ∈ nonemptyPieces pieces := by
      rw [next]
      exact .head _
    rw [next]
    apply length_pos_iff.mpr
    intro (empty : piece = [])
    have nonempty := (mem_filter.mp kept).2
    rw [empty] at nonempty
    cases nonempty
  cursor := rfl
  pending := (cutHead_zero _).symm
  offset := rfl
  written := rfl
  within := by
    intro write made
    cases made

/-- The write left the pieces in the file, one behind the other, from `offset` on. -/
def Landed (pieces : List Bytes) (offset : Nat) (loop : WriteLoop) : Prop :=
  readAt loop.file offset pieces.flatten.length = pieces.flatten

/-- No byte was written before `offset` or behind the end of the pieces. -/
def WroteWithin (pieces : List Bytes) (offset : Nat) (loop : WriteLoop) : Prop :=
  ∀ write ∈ loop.writes,
    offset ≤ write.1 ∧ write.1 + write.2.length ≤ offset + pieces.flatten.length

variable {offset : Nat} {results : List Nat}

/-- Without a piece cut twice a write stays in the range of its pieces, returns `Ok` only with all
of them in the file, and does return `Ok` once the results add up to them. -/
theorem writeAllVectoredAt_of_once
    (answers : Answers segments (nonemptyPieces pieces) results (startLoop file pieces offset))
    (once : ¬CutTwice pieces 0 results) :
    WroteWithin pieces offset (writeAllVectoredAt segments file pieces offset results).2 ∧
      ((writeAllVectoredAt segments file pieces offset results).1 = .ok →
        Landed pieces offset (writeAllVectoredAt segments file pieces offset results).2) ∧
      (pieces.flatten.length ≤ results.sum →
        (writeAllVectoredAt segments file pieces offset results).1 = .ok) := by
  rw [← cutTwice_nonemptyPieces] at once
  obtain ⟨done, rest, cut, resumed, ended⟩ :=
    (resumed_startLoop file pieces offset).writeLoop (sized_startLoop file pieces offset) answers
      once
  rw [flatten_nil, length_nil, Nat.zero_add] at ended
  rw [Landed, WroteWithin, ← flatten_nonemptyPieces, writeAllVectoredAt]
  have position := resumed.position_le
  refine ⟨?_, ?_, ?_⟩
  · intro write made
    have within := resumed.within write made
    omega
  · intro returned
    rcases ended with all | unanswered
    · have whole := resumed.split
      rw [all.2, append_nil] at whole
      rw [resumed.written, ← whole, take_of_length_le (Nat.le_add_right _ _)]
      exact readAt_writeAt file offset _
    · rw [unanswered.1] at returned
      cases returned
  · intro enough
    rcases ended with all | unanswered
    · exact all.1
    · have short := resumed.short unanswered.2.1
      have sum := unanswered.2.2
      have split := resumed.split
      obtain ⟨piece, tail, next⟩ := exists_cons_of_ne_nil unanswered.2.1
      have short : cut < piece.length := by
        rw [next] at short
        exact short
      rw [split, next, flatten_append, flatten_cons, length_append,
        length_append] at enough
      omega

/-- Short writes leave the pieces in the file, and nothing outside their range, exactly when no
two successive writes end inside the same piece. -/
theorem short_writes_land_iff (segments : Nat) (file : Bytes) (pieces : List Bytes)
    (offset : Nat) (results : List Nat)
    (answers : Answers segments (nonemptyPieces pieces) results (startLoop file pieces offset)) :
    ((writeAllVectoredAt segments file pieces offset results).1 = .ok →
      (Landed pieces offset (writeAllVectoredAt segments file pieces offset results).2 ∧
          WroteWithin pieces offset (writeAllVectoredAt segments file pieces offset results).2 ↔
        ¬CutTwice pieces 0 results)) ∧
    (¬CutTwice pieces 0 results →
      WroteWithin pieces offset (writeAllVectoredAt segments file pieces offset results).2 ∧
        (pieces.flatten.length ≤ results.sum →
          (writeAllVectoredAt segments file pieces offset results).1 = .ok)) := by
  constructor
  · intro returned
    constructor
    · intro faithful twice
      rw [← cutTwice_nonemptyPieces] at twice
      have overruns := (resumed_startLoop file pieces offset).overruns
        (sized_startLoop file pieces offset) answers twice returned
      rcases overruns with ⟨past, write, made, ends⟩
      have within := faithful.2 write made
      rw [flatten_nonemptyPieces] at past
      omega
    · intro once
      rcases writeAllVectoredAt_of_once answers once with ⟨within, landed, _⟩
      exact ⟨landed returned, within⟩
  · intro once
    rcases writeAllVectoredAt_of_once answers once with ⟨within, _, returns⟩
    exact ⟨within, returns⟩

/-- Two records with a short write in the header of the first. -/
theorem short_writes_land_iff_header : Landed [[1, 2], [3, 4, 5], [], [6]] 8
        (writeAllVectoredAt maxWriteSegments [] [[1, 2], [3, 4, 5], [], [6]] 8 [1, 3, 2]).2 ∧
      WroteWithin [[1, 2], [3, 4, 5], [], [6]] 8
        (writeAllVectoredAt maxWriteSegments [] [[1, 2], [3, 4, 5], [], [6]] 8 [1, 3, 2]).2 :=
  ((short_writes_land_iff maxWriteSegments [] [[1, 2], [3, 4, 5], [], [6]] 8 [1, 3, 2]
    (by decide)).1 (by decide)).mpr (by decide)

/-- Two short writes inside one piece and then all that was offered: `Ok` is returned, and the
file holds the piece's second byte twice and ends a byte late. -/
theorem short_writes_shift_piece :
    ¬∀ (segments : Nat) (file : Bytes) (pieces : List Bytes) (offset : Nat) (results : List Nat),
      Answers segments (nonemptyPieces pieces) results (startLoop file pieces offset) →
      (writeAllVectoredAt segments file pieces offset results).1 = .ok →
      Landed pieces offset (writeAllVectoredAt segments file pieces offset results).2 ∧
        WroteWithin pieces offset (writeAllVectoredAt segments file pieces offset results).2 := by
  intro always
  have wrong := (always maxWriteSegments [] [[1, 2, 3, 4]] 0 [1, 1, 3] (by decide) (by decide)).1
  exact absurd wrong (by unfold Landed; decide)

end Yadorilink.Segments
