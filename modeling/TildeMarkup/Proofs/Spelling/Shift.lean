import TildeMarkup.Proofs.Document.Shift
import TildeMarkup.Proofs.Spelling.Respan

/-!
# Shifted spellings

A part that stands further to the right stands for the same nodes, with every span moved by as many
bytes (`Part.treesAll_shift`). So a document may be put inside of another one.
-/

namespace TildeMarkup.Spelling

/-- Shifting all spans moves every stretch, whatever its length is. -/
theorem moves_shift (n k len : Nat) : Moves (fun span => span.shift k) n (n + k) len := by
  intro a b _ _ _
  simp only [Span.shift, Span.mk.injEq]
  omega

theorem Part.treesAll_shift {blocks : Bool} {parts : List Part} (h : Part.FitsAll blocks parts)
    (k n : Nat) : Part.treesAll (n + k) parts = (Part.treesAll n parts).map (Tree.shift k) := by
  rw [Tree.shift_eq_respan]
  exact Part.treesAll_respan parts h (moves_shift n k _)

/-- Parts inside of another document stand for the nodes that they have by themselves, moved to
where they stand. -/
theorem Part.treesAll_eq_shift {blocks : Bool} {parts : List Part} (h : Part.FitsAll blocks parts)
    (n : Nat) : Part.treesAll n parts = (Part.treesAll 0 parts).map (Tree.shift n) := by
  rw [← Part.treesAll_shift h, Nat.zero_add]

end TildeMarkup.Spelling
