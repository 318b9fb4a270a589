import TildeMarkup.Proofs.Document.Marks

/-!
# String arguments

The string arguments of a tree, and a source without them: `dropSpans` deletes spans from the bytes
that stand at an offset. What is deleted depends on the offsets that the spans cover, on nothing else
(`dropSpans_congr`).
-/

namespace TildeMarkup

/-- The offset is in one of the spans. -/
def Covers (spans : List Span) (i : Nat) : Bool :=
  spans.any fun span => decide (span.start ≤ i) && decide (i < span.stop)

theorem covers_iff {spans : List Span} {i : Nat} :
    Covers spans i = true ↔ ∃ span ∈ spans, span.start ≤ i ∧ i < span.stop := by
  simp only [Covers, List.any_eq_true, Bool.and_eq_true, decide_eq_true_eq]

theorem covers_append {front back : List Span} {i : Nat} :
    Covers (front ++ back) i = (Covers front i || Covers back i) :=
  List.any_append

/-- The bytes, the first of which stands at an offset, without those in the spans. Offsets are counted on
over what is deleted. -/
def dropSpans (spans : List Span) (n : Nat) : Bytes → Bytes
  | [] => []
  | b :: rest =>
    if Covers spans n then dropSpans spans (n + 1) rest else b :: dropSpans spans (n + 1) rest

/-- The second part stands behind the first, whatever is deleted of that. -/
theorem dropSpans_append (spans : List Span) (n : Nat) (front back : Bytes) :
    dropSpans spans n (front ++ back)
      = dropSpans spans n front ++ dropSpans spans (n + front.length) back := by
  induction front generalizing n with
  | nil => rfl
  | cons b rest ih =>
    rw [List.cons_append, dropSpans, dropSpans, ih, List.length_cons,
      show n + 1 + rest.length = n + (rest.length + 1) from by omega]
    split <;> rfl

/-- Only what the spans cover among these bytes matters. -/
theorem dropSpans_congr {spans other : List Span} {n : Nat} {bytes : Bytes}
    (h : ∀ i, n ≤ i → i < n + bytes.length → Covers spans i = Covers other i) :
    dropSpans spans n bytes = dropSpans other n bytes := by
  induction bytes generalizing n with
  | nil => rfl
  | cons b rest ih =>
    rw [List.length_cons] at h
    have hrest := ih (n := n + 1) fun i hlo hhi => h i (by omega) (by omega)
    rw [dropSpans, dropSpans, hrest, h n (Nat.le_refl n) (by omega)]

theorem dropSpans_none {n : Nat} {bytes : Bytes} : dropSpans [] n bytes = bytes := by
  induction bytes generalizing n with
  | nil => rfl
  | cons b rest ih =>
    rw [dropSpans, if_neg (by rw [Covers]; exact Bool.false_ne_true), ih]

/-- Where everything is covered nothing is left. -/
theorem dropSpans_whole {spans : List Span} {n : Nat} {bytes : Bytes}
    (h : ∀ i, n ≤ i → i < n + bytes.length → Covers spans i = true) :
    dropSpans spans n bytes = [] := by
  induction bytes generalizing n with
  | nil => rfl
  | cons b rest ih =>
    rw [List.length_cons] at h
    rw [dropSpans, if_pos (h n (Nat.le_refl n) (by omega))]
    exact ih fun i hlo hhi => h i (by omega) (by omega)

/-- Spans that end before the bytes delete nothing of them. -/
theorem dropSpans_after {spans : List Span} {n : Nat} {bytes : Bytes}
    (h : ∀ span ∈ spans, span.stop ≤ n) : dropSpans spans n bytes = bytes := by
  refine (dropSpans_congr fun i hlo _ => ?_).trans dropSpans_none
  refine Bool.eq_false_iff.2 fun hcovers => ?_
  obtain ⟨span, hspan, _, hstop⟩ := covers_iff.1 hcovers
  have hle := h span hspan
  omega

/-- One more span covers what it covers itself, and nothing else is changed. -/
theorem covers_snoc {spans : List Span} {start stop i : Nat} :
    Covers (spans ++ [⟨start, stop⟩]) i = true
      ↔ Covers spans i = true ∨ (start ≤ i ∧ i < stop) := by
  rw [covers_iff, covers_iff]
  simp only [List.mem_append, List.mem_singleton, or_and_right, exists_or, exists_eq_left]

/-- An empty span deletes nothing. -/
theorem dropSpans_empty {spans : List Span} {m n : Nat} {bytes : Bytes} :
    dropSpans (spans ++ [⟨m, m⟩]) n bytes = dropSpans spans n bytes := by
  refine dropSpans_congr fun i _ _ => ?_
  rw [Bool.eq_iff_iff, covers_snoc]
  refine or_iff_left fun h => ?_
  omega

/-- A span that grows with the bytes deletes the one that is new. -/
theorem dropSpans_grow {spans : List Span} {start : Nat} {bytes : Bytes} {b : UInt8}
    (h : start ≤ bytes.length) :
    dropSpans (spans ++ [⟨start, bytes.length + 1⟩]) 0 (bytes ++ [b])
      = dropSpans (spans ++ [⟨start, bytes.length⟩]) 0 bytes := by
  -- The new byte is the last one in the span, so it is deleted.
  have hlast : dropSpans (spans ++ [⟨start, bytes.length + 1⟩]) (0 + bytes.length) [b] = [] := by
    refine dropSpans_whole fun i hlo hhi => covers_snoc.2 (.inr ?_)
    rw [List.length_singleton] at hhi
    exact ⟨by omega, by omega⟩
  rw [dropSpans_append, hlast, List.append_nil]
  refine dropSpans_congr fun i _ hhi => ?_
  -- On the bytes before, the longer span covers what the shorter one does.
  rw [Bool.eq_iff_iff, covers_snoc, covers_snoc]
  refine or_congr_right ?_
  constructor
  · rintro ⟨hstart, _⟩
    exact ⟨hstart, by omega⟩
  · rintro ⟨hstart, hstop⟩
    exact ⟨hstart, Nat.lt_succ_of_lt hstop⟩

namespace Mark

/-- The spans of the string arguments among some marks. -/
def strings (marks : List Mark) : List Span :=
  marks.filterMap fun
    | argument .string span => some span
    | _ => none

theorem mem_strings {marks : List Mark} {span : Span} :
    span ∈ strings marks ↔ .argument .string span ∈ marks := by
  rw [strings, List.mem_filterMap]
  constructor
  · rintro ⟨mark, hmark, hspan⟩
    match mark, hspan with
    | argument .string _, rfl => exact hmark
  · intro h
    exact ⟨_, h, rfl⟩

end Mark

/-- The string arguments of a tree, in document order. -/
def Tree.strings (tree : Tree) : List Span :=
  Mark.strings tree.marks

/-- The string arguments of an argument: itself, or those of what it holds. -/
def Argument.strings (arg : Argument Tree) : List Span :=
  Mark.strings arg.marks

namespace Mark

theorem strings_append (front back : List Mark) :
    strings (front ++ back) = strings front ++ strings back :=
  List.filterMap_append

/-- Strings of a list are those of its members, one after the other. -/
theorem strings_flatMap {α : Type} (f : α → List Mark) (l : List α) :
    strings (l.flatMap f) = l.flatMap fun a => strings (f a) := by
  induction l with
  | nil => rfl
  | cons a rest ih => rw [List.flatMap_cons, List.flatMap_cons, strings_append, ih]

end Mark

namespace Tree

@[simp] theorem strings_group (children : List Tree) :
    (Tree.node (.group children)).strings = children.flatMap strings := by
  rw [strings, marks_group, Mark.strings_flatMap]
  rfl

@[simp] theorem strings_paragraph (children : List Tree) :
    (Tree.node (.paragraph children)).strings = children.flatMap strings := by
  rw [strings, marks_paragraph, Mark.strings_flatMap]
  rfl

@[simp] theorem strings_text (span : Span) : (Tree.node (.text span)).strings = [] := by
  rw [strings, marks_text]
  rfl

@[simp] theorem strings_command (name : Span) (args : List (Argument Tree)) :
    (Tree.node (.command name args)).strings = args.flatMap Argument.strings := by
  rw [strings, marks_command, Mark.strings]
  exact Mark.strings_flatMap Argument.marks args

end Tree

namespace Argument

@[simp] theorem strings_block (children : List Tree) (span : Span) :
    (Argument.block children span).strings = children.flatMap Tree.strings := by
  rw [strings, marks_block, Mark.strings]
  exact Mark.strings_flatMap Tree.marks children

@[simp] theorem strings_inline (child : Tree) (span : Span) :
    (Argument.inline child span).strings = child.strings := rfl

@[simp] theorem strings_ident (span : Span) :
    (Argument.ident span : Argument Tree).strings = [] := rfl

@[simp] theorem strings_string (span : Span) :
    (Argument.string span : Argument Tree).strings = [span] := rfl

end Argument

end TildeMarkup
