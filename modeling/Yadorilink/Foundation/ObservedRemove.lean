import Mathlib

/-! Histories of events that put values and remove values they have observed.
A value is live when an event of the history put it and no event of the
history removes it. The definition looks at the whole history; the lemmas say
how liveness moves when one event is added and when two histories are merged,
which is what an incremental state needs. -/

namespace Yadorilink.ObservedRemove

universe u

/-- What events do: each has a key, puts values at places under that key, and
removes keys at places. -/
structure Effects (Event Place Key Value : Type u) where
  key : Event → Key
  puts : Event → Place → Value → Prop
  removes : Event → Place → Key → Prop

variable {Event Place Key Value : Type u} (effects : Effects Event Place Key Value)

/-- The value put at `place` under `key` is still there. -/
def Live (history : Set Event) (place : Place) (key : Key) (value : Value) : Prop :=
  ∃ event, event ∈ history ∧ effects.key event = key ∧ effects.puts event place value ∧
    ∀ other, other ∈ history → ¬effects.removes other place key

/-- Every key an event of the history removes belongs to an event of the
history. -/
def Closed (history : Set Event) : Prop :=
  ∀ event, event ∈ history → ∀ place key, effects.removes event place key →
    ∃ other, other ∈ history ∧ effects.key other = key

variable {effects} {place : Place}

/-! ## Adding one event -/

/-- Adding an event whose key nothing removes: its own puts come in, and what
it removes goes. -/
theorem live_insert_iff {history : Set Event} {event : Event}
    (unremoved : ∀ other, other ∈ insert event history → ∀ place,
      ¬effects.removes other place (effects.key event)) {key : Key} {value : Value} :
    Live effects (insert event history) place key value ↔
      (effects.key event = key ∧ effects.puts event place value) ∨
        (Live effects history place key value ∧ ¬effects.removes event place key) := by
  constructor
  · rintro ⟨putter, member, sameKey, puts, kept⟩
    rcases Set.mem_insert_iff.mp member with rfl | old
    · exact Or.inl ⟨sameKey, puts⟩
    · exact Or.inr ⟨⟨putter, old, sameKey, puts,
        fun other inOld => kept other (Set.mem_insert_of_mem event inOld)⟩,
        kept event (Set.mem_insert event history)⟩
  · rintro (⟨rfl, puts⟩ | ⟨⟨putter, old, sameKey, puts, kept⟩, notRemoved⟩)
    · exact ⟨event, Set.mem_insert event history, rfl, puts,
        fun other member => unremoved other member place⟩
    · refine ⟨putter, Set.mem_insert_of_mem event old, sameKey, puts, ?_⟩
      intro other member
      rcases Set.mem_insert_iff.mp member with rfl | inOld
      · exact notRemoved
      · exact kept other inOld

/-! ## Merging two histories -/

/-- A live value of one side survives a merge when the other side has it live
or does not know its key. -/
theorem live_union_iff {left right : Set Event} (leftClosed : Closed effects left)
    (rightClosed : Closed effects right)
    (keyInj : ∀ first second, first ∈ left ∪ right → second ∈ left ∪ right →
      effects.key first = effects.key second → first = second) {key : Key} {value : Value} :
    Live effects (left ∪ right) place key value ↔ (Live effects left place key value ∧
        (Live effects right place key value ∨ ¬∃ event, event ∈ right ∧ effects.key event = key)) ∨
      (Live effects right place key value ∧ ¬∃ event, event ∈ left ∧ effects.key event = key) := by
  constructor
  · rintro ⟨putter, member, sameKey, puts, kept⟩
    have keptLeft : ∀ other, other ∈ left → ¬effects.removes other place key :=
      fun other inLeft => kept other (Or.inl inLeft)
    have keptRight : ∀ other, other ∈ right → ¬effects.removes other place key :=
      fun other inRight => kept other (Or.inr inRight)
    -- The event of that key on either side is the putter itself.
    have isPutter : ∀ event, event ∈ left ∪ right → effects.key event = key →
        event = putter :=
      fun event known keyOfEvent => keyInj event putter known member (keyOfEvent.trans sameKey.symm)
    by_cases knownLeft : ∃ event, event ∈ left ∧ effects.key event = key
    · rcases knownLeft with ⟨event, inLeft, keyOfEvent⟩
      have isLeft : putter ∈ left := isPutter event (Or.inl inLeft) keyOfEvent ▸ inLeft
      refine Or.inl ⟨⟨putter, isLeft, sameKey, puts, keptLeft⟩, ?_⟩
      by_cases knownRight : ∃ event, event ∈ right ∧ effects.key event = key
      · rcases knownRight with ⟨other, inRight, keyOfOther⟩
        have isRight : putter ∈ right := isPutter other (Or.inr inRight) keyOfOther ▸ inRight
        exact Or.inl ⟨putter, isRight, sameKey, puts, keptRight⟩
      · exact Or.inr knownRight
    · have isRight : putter ∈ right :=
        member.resolve_left fun inLeft => knownLeft ⟨putter, inLeft, sameKey⟩
      exact Or.inr ⟨⟨putter, isRight, sameKey, puts, keptRight⟩, knownLeft⟩
  · rintro (⟨⟨putter, inLeft, sameKey, puts, keptLeft⟩, onRight⟩ |
      ⟨⟨putter, inRight, sameKey, puts, keptRight⟩, unknownLeft⟩)
    · refine ⟨putter, Or.inl inLeft, sameKey, puts, ?_⟩
      rintro other (otherLeft | otherRight)
      · exact keptLeft other otherLeft
      · rcases onRight with ⟨_, _, _, _, keptRight⟩ | unknownRight
        · exact keptRight other otherRight
        · exact fun removes => unknownRight (rightClosed other otherRight place key removes)
    · refine ⟨putter, Or.inr inRight, sameKey, puts, ?_⟩
      rintro other (otherLeft | otherRight)
      · exact fun removes => unknownLeft (leftClosed other otherLeft place key removes)
      · exact keptRight other otherRight

/-! ## Values that are carried on -/

/-- Where every event that removes a good value puts a good value itself, and comes
later than what it removes, a good value that was put once is live somewhere. -/
theorem exists_live_of_carried {history : Set Event} {good : Value → Prop} {rank : Event → Nat}
    {bound : Nat} (bounded : ∀ event, event ∈ history → rank event ≤ bound)
    (carried : ∀ putter, putter ∈ history → ∀ remover, remover ∈ history → ∀ place value,
      effects.puts putter place value → good value →
      effects.removes remover place (effects.key putter) →
      rank putter < rank remover ∧ ∃ next landed, effects.puts remover next landed ∧ good landed)
    {event : Event} (member : event ∈ history) {value : Value}
    (puts : effects.puts event place value) (isGood : good value) :
    ∃ at_ key kept, Live effects history at_ key kept ∧ good kept := by
  -- Events that still follow bound how often the value can move on.
  induction left : bound - rank event using Nat.strongRecOn generalizing event place value with
  | _ left induction =>
    by_cases removed : ∃ remover, remover ∈ history ∧
        effects.removes remover place (effects.key event)
    · rcases removed with ⟨remover, inHistory, removes⟩
      rcases carried event member remover inHistory place value puts isGood removes with
        ⟨later, next, landed, putsNext, goodNext⟩
      have within := bounded remover inHistory
      exact induction (bound - rank remover) (by omega) inHistory putsNext goodNext rfl
    · refine ⟨place, effects.key event, value, ⟨event, member, rfl, puts, ?_⟩, isGood⟩
      intro remover inHistory removes
      exact removed ⟨remover, inHistory, removes⟩

/-! ## Transitive removal -/

/-- Some event of the universe with key `remover` removes `removed`. -/
def Removes (effects : Effects Event Place Key Value) (known : Set Event) (place : Place)
    (remover removed : Key) : Prop :=
  ∃ event, event ∈ known ∧ effects.key event = remover ∧ effects.removes event place removed

/-- In a closed history, whatever is removed through a chain is removed
directly: the chain never leaves the history. -/
theorem exists_removes_of_transGen {known history : Set Event} (within : history ⊆ known)
    (closed : Closed effects history) (keyInj : ∀ first second, first ∈ known → second ∈ known →
      effects.key first = effects.key second → first = second) {event : Event} {removed : Key}
    (member : event ∈ history)
    (chain : Relation.TransGen (Removes effects known place) (effects.key event) removed) :
    ∃ other, other ∈ history ∧ effects.removes other place removed := by
  have step : ∀ remover target, (∃ event, event ∈ history ∧ effects.key event = remover) →
      Removes effects known place remover target →
      ∃ other, other ∈ history ∧ effects.removes other place target := by
    rintro remover target ⟨first, inHistory, keyOfFirst⟩ ⟨second, inKnown, keyOfSecond, removes⟩
    have same := keyInj second first inKnown (within inHistory)
      (keyOfSecond.trans keyOfFirst.symm)
    exact ⟨second, same ▸ inHistory, removes⟩
  induction chain with
  | single edge => exact step _ _ ⟨event, member, rfl⟩ edge
  | tail _ edge previous =>
    rcases previous with ⟨other, inHistory, removes⟩
    exact step _ _ (closed other inHistory place _ removes) edge

end Yadorilink.ObservedRemove
