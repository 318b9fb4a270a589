import TildeMarkup.Byte

/-!
# Spans

A span is a half-open range of byte offsets. It may reach past the source, or run backwards: the
bytes it selects are then those that exist, or none.
-/

namespace TildeMarkup

/-- The offsets from `start` up to, and without, `stop`. Nothing says that the first is the smaller
one. -/
structure Span where
  start : Nat
  stop : Nat
  deriving DecidableEq, Repr, Inhabited

namespace Span

/-- The bytes of `source` that the span covers, as far as they exist. -/
def slice (span : Span) (source : Bytes) : Bytes :=
  (source.drop span.start).take (span.stop - span.start)

/-- The bounds with one byte taken off at each end: the place between two quotes. The range may run
backwards, and its end is `-1` when the span ends at 0. -/
def inner (span : Span) : Int × Int :=
  ((span.start : Int) + 1, (span.stop : Int) - 1)

/-- The bytes between the two quotes of a string argument. An end of `-1` counts from the end of the
source, so that it leaves out the last byte of the source. -/
def contents (span : Span) (source : Bytes) : Bytes :=
  let stop := if span.stop = 0 then source.length - 1 else span.stop - 1
  slice ⟨span.start + 1, stop⟩ source

/-- The span moved `n` bytes to the right, as it is when something is put in front of the source. -/
def shift (span : Span) (n : Nat) : Span :=
  ⟨span.start + n, span.stop + n⟩

/-- A span over the second of two texts reads what the span before the shift reads of it alone. -/
theorem slice_shift_append (span : Span) (before source : Bytes) :
    (span.shift before.length).slice (before ++ source) = span.slice source := by
  simp only [slice, shift]
  rw [List.drop_append, List.drop_of_length_le (by omega), List.nil_append]
  congr 1
  · omega
  · congr 1; omega

end Span

end TildeMarkup
