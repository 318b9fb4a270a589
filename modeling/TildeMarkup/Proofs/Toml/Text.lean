import TildeMarkup.Toml.Value

/-!
# Values that have a text

A value has a text exactly if none of the integers in it has too many digits
(`Value.exists_toText`), however deep they stand in arrays and tables.
-/

namespace TildeMarkup.Toml

namespace Value

mutual

/-- The integers in a value, those in arrays and tables among them. -/
def integers : Value → List Int
  | integer n => [n]
  | array items => itemIntegers items
  | table entries => entryIntegers entries
  | _ => []

/-- The integers in the items of an array, from the first to the last. -/
def itemIntegers : List Value → List Int
  | [] => []
  | item :: rest => integers item ++ itemIntegers rest

/-- The integers in the values of a table; the keys have none. -/
def entryIntegers : List (String × Value) → List Int
  | [] => []
  | (_, value) :: rest => integers value ++ entryIntegers rest

end

end Value

/-- None of the integers has more digits than are converted to a text. -/
def Convertible (integers : List Int) : Prop :=
  ∀ n ∈ integers, n.natAbs < Nat.pow 10 maxDigits

theorem convertible_nil : Convertible [] :=
  fun _ hn => absurd hn List.not_mem_nil

theorem convertible_append {front back : List Int} :
    Convertible (front ++ back) ↔ Convertible front ∧ Convertible back :=
  List.forall_mem_append

/-- An integer is converted exactly if it is convertible. -/
theorem exists_integerText {n : Int} : (∃ text, integerText? n = some text) ↔ Convertible [n] := by
  unfold integerText? Convertible
  rw [List.forall_mem_singleton]
  split
  · next h => exact iff_of_true ⟨_, rfl⟩ h
  · next h => exact iff_of_false nofun h

/-- What is made of two results is there if both of them are. -/
theorem exists_bind_some {α β γ : Type} {first : Option α} {second : Option β} {f : α → β → γ} :
    (∃ c, (do return f (← first) (← second)) = some c)
      ↔ (∃ a, first = some a) ∧ ∃ b, second = some b := by
  cases first <;> cases second <;> simp

theorem exists_map_some {α β : Type} {first : Option α} {f : α → β} :
    (∃ b, (do return f (← first)) = some b) ↔ ∃ a, first = some a := by
  cases first <;> simp

namespace Value

mutual

/-- A value has a text where it is nested if its integers have one. -/
theorem exists_nested : ∀ value : Value, (∃ text, value.nested? = some text) ↔ Convertible value.integers
  | string _ => iff_of_true ⟨_, rfl⟩ convertible_nil
  | integer _ => exists_integerText
  | float _ => iff_of_true ⟨_, rfl⟩ convertible_nil
  | boolean _ => iff_of_true ⟨_, rfl⟩ convertible_nil
  | date _ => iff_of_true ⟨_, rfl⟩ convertible_nil
  | time _ => iff_of_true ⟨_, rfl⟩ convertible_nil
  | dateTime _ _ none => iff_of_true ⟨_, rfl⟩ convertible_nil
  | dateTime _ _ (some _) => iff_of_true ⟨_, rfl⟩ convertible_nil
  | array items => by
    rw [nested?, integers, ← exists_nestedItems items]
    exact exists_map_some
  | table entries => by
    rw [nested?, integers, ← exists_nestedEntries entries]
    exact exists_map_some

theorem exists_nestedItems : ∀ items : List Value,
    (∃ texts, nestedItems? items = some texts) ↔ Convertible (itemIntegers items)
  | [] => iff_of_true ⟨_, rfl⟩ convertible_nil
  | item :: rest => by
    rw [nestedItems?, itemIntegers, convertible_append, ← exists_nested item, ← exists_nestedItems rest]
    exact exists_bind_some

theorem exists_nestedEntries : ∀ entries : List (String × Value),
    (∃ texts, nestedEntries? entries = some texts) ↔ Convertible (entryIntegers entries)
  | [] => iff_of_true ⟨_, rfl⟩ convertible_nil
  | (_, value) :: rest => by
    rw [nestedEntries?, entryIntegers, convertible_append, ← exists_nested value,
      ← exists_nestedEntries rest]
    exact exists_bind_some

end

end Value

end TildeMarkup.Toml
