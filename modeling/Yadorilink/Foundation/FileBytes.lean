import Mathlib

/-! A file as the bytes it holds. A positional write past the end fills the gap with the
given filler, as a sparse file reads back; writing nothing leaves the file as it is. -/

namespace Yadorilink.FileBytes

open List

universe u

variable {α : Type u} (filler : α)

/-- The first `offset` bytes, filled up where the file is shorter. -/
def upTo (file : List α) (offset : Nat) : List α :=
  file.take offset ++ List.replicate (offset - file.length) filler

def writeAt (file : List α) (offset : Nat) : List α → List α
  | [] => file
  | byte :: bytes =>
    upTo filler file offset ++ byte :: bytes ++ file.drop (offset + (bytes.length + 1))

/-- What a positional read of `count` bytes gives; shorter at the end of the file. -/
def readAt (file : List α) (offset count : Nat) : List α :=
  (file.drop offset).take count

variable {filler}

@[simp] theorem length_upTo (file : List α) (offset : Nat) :
    (upTo filler file offset).length = offset := by
  rw [upTo, length_append, length_take, length_replicate]
  omega

theorem upTo_of_le {file : List α} {offset : Nat} (within : offset ≤ file.length) :
    upTo filler file offset = file.take offset := by
  rw [upTo, Nat.sub_eq_zero_of_le within, replicate_zero, append_nil]

theorem upTo_writeAt (file : List α) (offset : Nat) (bytes : List α) :
    upTo filler (writeAt filler file offset bytes) (offset + bytes.length) =
      upTo filler file offset ++ bytes := by
  cases bytes with
  | nil => rw [writeAt, length_nil, Nat.add_zero, append_nil]
  | cons byte bytes =>
    have front : (upTo filler file offset ++ byte :: bytes).length =
        offset + (bytes.length + 1) := by
      rw [length_append, length_upTo, length_cons]
    rw [writeAt, length_cons, upTo_of_le, take_left' front]
    rw [length_append, front]
    exact Nat.le_add_right _ _

theorem drop_writeAt (file : List α) (offset : Nat) (bytes : List α) :
    (writeAt filler file offset bytes).drop (offset + bytes.length) =
      file.drop (offset + bytes.length) := by
  cases bytes with
  | nil => rfl
  | cons byte bytes =>
    rw [writeAt, length_cons]
    apply drop_left'
    rw [length_append, length_upTo, length_cons]

theorem writeAt_writeAt (file : List α) (offset : Nat) (first second : List α) :
    writeAt filler (writeAt filler file offset first) (offset + first.length) second =
      writeAt filler file offset (first ++ second) := by
  cases second with
  | nil => rw [writeAt, append_nil]
  | cons byte bytes =>
    have tail : (writeAt filler file offset first).drop
        (offset + first.length + (bytes.length + 1)) =
        file.drop (offset + (first ++ byte :: bytes).length) := by
      rw [← drop_drop, drop_writeAt, drop_drop, length_append, Nat.add_assoc,
        length_cons]
    rw [writeAt, upTo_writeAt, tail]
    cases first with
    | nil => rw [append_nil]; rfl
    | cons head rest => rw [append_assoc (upTo filler file offset)]; rfl

theorem readAt_writeAt (file : List α) (offset : Nat) (bytes : List α) :
    readAt (writeAt filler file offset bytes) offset bytes.length = bytes := by
  cases bytes with
  | nil => rfl
  | cons byte bytes =>
    rw [readAt, writeAt, append_assoc, drop_left' (length_upTo file offset)]
    exact take_left' rfl

/-! ## What a write leaves alone -/

variable {file other bytes : List α} {offset count stop : Nat}

theorem take_upTo (before : stop ≤ offset) (within : stop ≤ file.length) :
    (upTo filler file offset).take stop = file.take stop := by
  rw [upTo, take_append_of_le_length, take_take, Nat.min_eq_left before]
  rw [length_take]
  exact Nat.le_min.mpr ⟨before, within⟩

theorem take_writeAt (before : stop ≤ offset) (within : stop ≤ file.length) :
    (writeAt filler file offset bytes).take stop = file.take stop := by
  cases bytes with
  | nil => rfl
  | cons byte bytes =>
    rw [writeAt, append_assoc, take_append_of_le_length, take_upTo before within]
    rw [length_upTo]
    exact before

theorem length_le_of_take (same : other.take stop = file.take stop)
    (within : stop ≤ file.length) : stop ≤ other.length := by
  have lengths := congrArg List.length same
  rw [length_take, length_take] at lengths
  omega

theorem readAt_of_take (same : other.take stop = file.take stop)
    (inside : offset + count ≤ stop) : readAt other offset count = readAt file offset count := by
  have front : ∀ whole : List α, readAt whole offset count =
      ((whole.take stop).drop offset).take count := by
    intro whole
    rw [readAt, drop_take, take_take, Nat.min_eq_left (Nat.le_sub_of_add_le' inside)]
  rw [front, front, same]

theorem readAt_writeAt_part (file front part back : List α) (offset : Nat) :
    readAt (writeAt filler file offset (front ++ (part ++ back))) (offset + front.length)
      part.length = part := by
  rw [← writeAt_writeAt, ← writeAt_writeAt]
  have kept : (writeAt filler (writeAt filler (writeAt filler file offset front)
        (offset + front.length) part) (offset + front.length + part.length) back).take
          (offset + front.length + part.length) =
      (writeAt filler (writeAt filler file offset front) (offset + front.length) part).take
          (offset + front.length + part.length) ∨ part = [] := by
    cases part with
    | nil => exact .inr rfl
    | cons byte part =>
      refine .inl (take_writeAt (Nat.le_refl _) ?_)
      rw [writeAt, length_append, length_append, length_upTo]
      exact Nat.le_add_right _ _
  rcases kept with same | empty
  · rw [readAt_of_take same (Nat.le_refl _), readAt_writeAt]
  · rw [empty]
    exact take_zero ..

end Yadorilink.FileBytes
