import TildeMarkup.Reader.Step
import TildeMarkup.Document.Arena

/-!
# Reading a source

A source is read by taking its bytes one after the other. `parse` gives the document as an arena.
-/

namespace TildeMarkup

namespace Reader

/-- Takes the bytes one after the other, up to the first that is refused. -/
def run (r : Reader) (bytes : Bytes) : Except Fault Reader :=
  bytes.foldlM step r

@[simp] theorem run_nil (r : Reader) : r.run [] = .ok r := rfl

theorem run_cons (r : Reader) (b : UInt8) (rest : Bytes) :
    r.run (b :: rest) = (r.step b).bind fun r => r.run rest := rfl

/-- Bytes may be taken in two goes. What the second go finds depends on the first through the reader
alone. -/
theorem run_append (r : Reader) (bytes rest : Bytes) :
    r.run (bytes ++ rest) = (r.run bytes).bind fun r => r.run rest := by
  simp only [run, List.foldlM_append]
  rfl

/-- A reader has moved on by as many bytes as it has taken. -/
theorem offset_of_run {r last : Reader} {bytes : Bytes} (h : r.run bytes = .ok last) :
    last.offset = r.offset + bytes.length := by
  induction bytes generalizing r with
  | nil =>
    cases h
    rfl
  | cons b rest ih =>
    rw [run_cons] at h
    cases hstep : r.step b with
    | error fault =>
      rw [hstep] at h
      cases h
    | ok next =>
      rw [hstep] at h
      have hrest := ih h
      have hnext := offset_of_step hstep
      rw [hrest, hnext, List.length_cons]
      omega

/-- A reader that has started at the first byte has moved on by all the bytes that it has taken. -/
theorem offset_of_initial {r : Reader} {bytes : Bytes} (h : initial.run bytes = .ok r) :
    r.offset = bytes.length :=
  (offset_of_run h).trans (Nat.zero_add _)

/-- Bytes that are refused are refused at the first of them that no step takes. -/
theorem refused_of_run {r : Reader} {bytes : Bytes} {fault : Fault}
    (h : r.run bytes = .error fault) :
    ∃ before b after reached, bytes = before ++ b :: after ∧ r.run before = .ok reached
      ∧ reached.step b = .error fault := by
  induction bytes generalizing r with
  | nil => cases h
  | cons b rest ih =>
    rw [run_cons] at h
    cases hstep : r.step b with
    | error found =>
      rw [hstep] at h
      cases h
      exact ⟨[], b, rest, r, rfl, rfl, hstep⟩
    | ok next =>
      rw [hstep] at h
      obtain ⟨before, c, after, reached, rfl, hrun, hrefused⟩ := ih h
      refine ⟨b :: before, c, after, reached, rfl, ?_, hrefused⟩
      rw [run_cons, hstep]
      exact hrun

end Reader

/-- The tree of a source, if all bytes can be taken and the source may end behind them. -/
def Tree.parse (source : Bytes) : Except Fault Tree := do
  let r ← Reader.initial.run source
  r.finish

/-- The arena of a source. Its nodes are numbered once the whole tree is there. -/
def parse (source : Bytes) : Except Fault Arena := do
  let tree ← Tree.parse source
  return tree.toArena

end TildeMarkup
