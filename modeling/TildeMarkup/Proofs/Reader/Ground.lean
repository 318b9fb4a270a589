import TildeMarkup.Proofs.Document.Shift
import TildeMarkup.Proofs.Reader.Frame

/-!
# Reading on after a document

A reader that has read one document and goes on at the start of a line reads as it would from the
start of a source, over a ground: offsets are shifted by what has been read, the brackets that prose
has left open lie below its own, and the blocks in front are those of the first document. Every step
that a reader takes by itself it takes over a ground (`step_over`), and so does a whole run.
-/

namespace TildeMarkup

namespace Reader

/-- What a document leaves to the reader that goes on after it: the bytes it takes, the brackets open
at its end, and its blocks, the newest first. -/
structure Ground where
  length : Nat
  opened : List Bracket
  blocks : List Tree

/-- The frame of what follows a document: everything is further to the right by its length. -/
def Ground.frame (ground : Ground) : Frame :=
  ⟨(· + ground.length), ground.opened, ground.blocks⟩

end Reader

/-- The reader over a ground. -/
def Reader.over (ground : Reader.Ground) (r : Reader) : Reader :=
  r.into ground.frame

namespace Reader

variable (ground : Ground)

/-- A reader that is in the middle of something has read a byte. -/
def Underway (r : Reader) : Prop :=
  0 < r.offset ∨ r.mode = .ready

/-- Offsets that all move by the same number stay side by side. -/
theorem Ground.admits {r : Reader} (hr : r.Underway) : ground.frame.Admits r where
  rises _ _ := Nat.add_lt_add_iff_right
  next := Nat.add_right_comm ..
  back pieces start hmode := by
    have hpos : 0 < r.offset := hr.resolve_right fun hready => by rw [hmode] at hready; cases hready
    show r.offset - 1 + ground.length = r.offset + ground.length - 1
    omega

/-- Every step is taken over a ground. -/
theorem step_over {r : Reader} (hr : r.Underway) (b : UInt8) :
    Mirrors (ground.opened = []) (Reader.over ground) (Fault.shift ground.length)
      (r.step b) ((r.over ground).step b) :=
  step_into (ground.admits hr) b

/-- And so is a whole run, byte after byte. -/
theorem run_over {r : Reader} (hr : r.Underway) (bytes : Bytes) :
    Mirrors (ground.opened = []) (Reader.over ground) (Fault.shift ground.length)
      (r.run bytes) ((r.over ground).run bytes) := by
  induction bytes generalizing r with
  | nil => exact .ok rfl
  | cons b rest ih =>
    have hstep := step_over ground hr b
    rw [run_cons, run_cons]
    cases h : r.step b with
    | ok next =>
      rw [h] at hstep
      have hover : (r.over ground).step b = .ok (next.over ground) := hstep
      rw [hover]
      -- After one byte the reader is underway in any mode.
      refine ih (.inl ?_)
      rw [offset_of_step h]
      exact Nat.zero_lt_succ _
    | error fault =>
      rw [h] at hstep
      intro hopened
      have hover : (r.over ground).step b = .error (fault.shift ground.length) := hstep hopened
      rw [hover]
      rfl

/-- The document with the blocks of a ground in front. -/
def Ground.extend (ground : Ground) (tree : Tree) : Tree :=
  match tree with
  | .node layer =>
    .node (.group (ground.blocks.reverse ++ layer.children.map (Tree.shift ground.length)))

theorem Ground.extend_frame : ground.frame.extend = ground.extend := by
  funext ⟨layer⟩
  rw [Ground.extend, Tree.shift_eq_respan]
  rfl

/-- The end comes over a ground as it does without. -/
theorem finish_over (r : Reader) :
    Mirrors (ground.opened = []) ground.extend (Fault.shift ground.length) r.finish
      (r.over ground).finish := by
  rw [← Ground.extend_frame]
  exact finish_into (fun _ _ => Nat.add_lt_add_iff_right) r

/-- Any source is read over a ground as it is by itself, from its first byte to its end. -/
theorem parse_over (source : Bytes) :
    Mirrors (ground.opened = []) ground.extend (Fault.shift ground.length) (Tree.parse source)
      (((initial.over ground).run source).bind Reader.finish) :=
  (run_over ground (.inr rfl) source).bind (finish_over ground)

end Reader

end TildeMarkup
