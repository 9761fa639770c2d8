import Mathlib
import Yadorilink.Foundation.Fallible

/-! Readers that take a value off the front of a list of symbols or fail. A
reader `Reads` an encoding when it takes exactly that encoding off, whatever
follows; encodings of parts then read back one after the other. -/

namespace Yadorilink.Reading

universe u

abbrev Reader (σ ε α : Type u) : Type u := StateT (List σ) (Except ε) α

variable {σ ε α β : Type u} {reader : Reader σ ε α} {symbols : List σ} {value : α}

/-- The reader takes `symbols` off the front and gives `value`. -/
def Reads (reader : Reader σ ε α) (symbols : List σ) (value : α) : Prop :=
  ∀ rest, reader.run (symbols ++ rest) = .ok (value, rest)

theorem Reads.pure (value : α) : Reads (Pure.pure value : Reader σ ε α) [] value :=
  fun _ => rfl

theorem Reads.run_bind (reads : Reads reader symbols value) (next : α → Reader σ ε β)
    (rest : List σ) : (reader >>= next).run (symbols ++ rest) = (next value).run rest := by
  rw [StateT.run_bind, reads]
  rfl

theorem Reads.run_bind_nil (reads : Reads reader symbols value) (next : α → Reader σ ε β) :
    (reader >>= next).run symbols = (next value).run [] := by
  have ran := reads.run_bind next []
  rw [List.append_nil] at ran
  exact ran

theorem run_get_bind (next : List σ → Reader σ ε β) (symbols : List σ) :
    (get >>= next).run symbols = (next symbols).run symbols := rfl

theorem Reads.bind {next : α → Reader σ ε β} {first second : List σ} {result : β}
    (reads : Reads reader first value) (readsNext : Reads (next value) second result) :
    Reads (reader >>= next) (first ++ second) result := by
  intro rest
  rw [List.append_assoc, reads.run_bind, readsNext]

theorem Reads.finish (reads : Reads reader symbols value) (wrap : α → β) :
    Reads (do let read ← reader; return wrap read) symbols (wrap value) := by
  intro rest
  rw [reads.run_bind]
  rfl

theorem run_bind_eq_ok_iff {next : α → Reader σ ε β} {rest : List σ} {result : β} :
    (reader >>= next).run symbols = .ok (result, rest) ↔
      ∃ value middle, reader.run symbols = .ok (value, middle) ∧
        (next value).run middle = .ok (result, rest) := by
  rw [StateT.run_bind, Fallible.bind_eq_ok_iff]
  constructor
  · intro ran
    rcases ran with ⟨taken, first, second⟩
    exact ⟨taken.1, taken.2, first, second⟩
  · intro ran
    rcases ran with ⟨value, middle, first, second⟩
    exact ⟨(value, middle), first, second⟩

/-- Takes `count` symbols, or fails with what `short` says of the symbols that
are left. -/
def take (short : Nat → ε) (count : Nat) : Reader σ ε (List σ) := do
  let symbols ← get
  if symbols.length < count then
    throw (short symbols.length)
  else
    set (symbols.drop count)
    return symbols.take count

theorem reads_take (short : Nat → ε) (symbols : List σ) :
    Reads (take short symbols.length) symbols symbols := by
  intro rest
  have enough : ¬ (symbols ++ rest).length < symbols.length := by simp
  simp only [take, bind, StateT.bind, get, getThe, MonadStateOf.get, StateT.get, Except.bind,
    StateT.run, pure, Except.pure, enough, if_false, set, StateT.set, StateT.pure,
    List.drop_left, List.take_left]

theorem run_take_eq_ok {short : Nat → ε} {count : Nat} {taken rest : List σ}
    (ran : (take short count).run symbols = .ok (taken, rest)) :
    symbols = taken ++ rest ∧ taken.length = count := by
  simp only [take, bind, StateT.bind, get, getThe, MonadStateOf.get, StateT.get, Except.bind,
    StateT.run, pure, Except.pure] at ran
  by_cases few : symbols.length < count
  · rw [if_pos few] at ran
    cases ran
  · rw [if_neg few] at ran
    cases ran
    exact ⟨(List.take_append_drop count symbols).symm, by simp; omega⟩

/-! ## Repetition -/

def repeated (reader : Reader σ ε α) : Nat → Reader σ ε (List α)
  | 0 => return []
  | count + 1 => do
      let value ← reader
      let rest ← repeated reader count
      return value :: rest

theorem reads_repeated {encode : α → List σ} {values : List α}
    (each : ∀ value ∈ values, Reads reader (encode value) value) :
    Reads (repeated reader values.length) (values.flatMap encode) values := by
  induction values with
  | nil => exact Reads.pure []
  | cons value rest induction =>
    have later := induction fun other member => each other (.tail value member)
    exact (each value List.mem_cons_self).bind (later.finish (value :: ·))

/-! ## One spelling -/

/-- What the reader takes off the front is the encoding of the value it gives. -/
def Spells (reader : Reader σ ε α) (encode : α → List σ) : Prop :=
  ∀ symbols value rest, reader.run symbols = .ok (value, rest) → symbols = encode value ++ rest

theorem Spells.repeated {encode : α → List σ} (spells : Spells reader encode) {count : Nat}
    {rest : List σ} {values : List α}
    (ran : (repeated reader count).run symbols = .ok (values, rest)) :
    values.length = count ∧ symbols = values.flatMap encode ++ rest := by
  induction count generalizing symbols values with
  | zero =>
    cases ran
    exact ⟨rfl, rfl⟩
  | succ count induction =>
    rcases run_bind_eq_ok_iff.mp ran with ⟨value, middle, first, ran⟩
    rcases run_bind_eq_ok_iff.mp ran with ⟨others, final, later, finished⟩
    cases finished
    rcases induction later with ⟨length, spelt⟩
    refine ⟨by rw [List.length_cons, length], ?_⟩
    rw [spells _ _ _ first, spelt, List.flatMap_cons, List.append_assoc]

/-- A reader gives one value for one encoding. -/
theorem Reads.unique {first second : α} (reads : Reads reader symbols first)
    (also : Reads reader symbols second) : first = second := by
  have same := (reads []).symm.trans (also [])
  cases same
  rfl

end Yadorilink.Reading
