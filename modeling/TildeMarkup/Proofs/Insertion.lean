import TildeMarkup.Proofs.Coverage
import TildeMarkup.Proofs.Edit
import TildeMarkup.Proofs.Html.Local

/-!
# Insertions

Bytes that are put into a source between the leaves of its tree (`Tree.Splits`) are not read when it is
rendered. With its spans adjusted (`Span.insert`), every layer reads what it did (`Node.Beside.alike`),
so the document gives the HTML that it gives over its own source, or the same failure
(`render_respan`).
-/

namespace TildeMarkup

open Spelling

/-- What becomes of a span when `k` bytes are put in at an offset: behind it the span moves, and around
it the span grows. A span that ends there keeps its place. -/
def Span.insert (q k : Nat) (span : Span) : Span :=
  if span.stop ≤ q then span
  else if q ≤ span.start then span.shift k
  else ⟨span.start, span.stop + k⟩

theorem Span.insert_of_le {q k : Nat} {span : Span} (h : span.stop ≤ q) : span.insert q k = span :=
  if_pos h

/-- The span does not go across the offset. -/
def Span.Beside (q : Nat) (span : Span) : Prop :=
  span.stop ≤ q ∨ q ≤ span.start

/-- No leaf of the tree goes across the offset. -/
def Tree.Splits (tree : Tree) (q : Nat) : Prop :=
  ∀ span ∈ tree.leaves, span.Beside q

/-! ## Where spans go -/

section Moves

variable {q k n more : Nat}

/-- What lies in front of the insertion stays. -/
theorem moves_insert_before (h : n + more ≤ q) (k : Nat) : Moves (Span.insert q k) n n more := by
  intro a b _ _ hb
  exact Span.insert_of_le (show n + b ≤ q by omega)

/-- What lies behind it moves by as many bytes as are put in. -/
theorem moves_insert_behind (h : q ≤ n) (k more : Nat) : Moves (Span.insert q k) n (n + k) more := by
  intro a b _ hpos _
  simp only [Span.insert, Span.shift]
  rw [if_neg (by omega), if_pos (by omega), Span.mk.injEq]
  omega

/-- A part with an insertion in it grows, what is around it grows with it, and what is behind it moves. -/
theorem regrows_insert {m old new : Nat} (hlo : m < q) (hhi : q ≤ m + old) (hnew : new = old + k) :
    Regrows (Span.insert q k) m old new where
  before n more hmore := moves_insert_before (by omega) k
  around a b ha hb := by
    show (if m + old + b ≤ q then _ else if q ≤ a then _ else _) = _
    rw [if_neg (by omega), if_neg (by omega), Span.mk.injEq]
    exact ⟨rfl, by show m + old + b + k = _; omega⟩
  behind more := by
    rw [hnew, ← Nat.add_assoc]
    exact moves_insert_behind hhi k more

end Moves

/-! ## What is read -/

section Slices

variable {before after added : Bytes} {span : Span}

theorem splice_insert (before after bytes : Bytes) :
    splice (before ++ after) before.length before.length bytes = before ++ (bytes ++ after) :=
  splice_append before [] after bytes

theorem slice_append_left (h : span.stop ≤ before.length) :
    span.slice (before ++ after) = span.slice before :=
  @Span.slice_shift span [] before after h

/-- What stands behind an insertion is read from further to the right. -/
theorem slice_insert_behind (h : before.length ≤ span.start) :
    (span.shift added.length).slice (before ++ (added ++ after)) = span.slice (before ++ after) := by
  -- Dropping up to a place behind the insertion leaves the same bytes, with it and without it.
  have hdrop (middle : Bytes) : (before ++ (middle ++ after)).drop (span.start + middle.length)
      = after.drop (span.start - before.length) := by
    rw [← List.append_assoc, List.drop_append, List.drop_of_length_le, List.nil_append]
    · congr 1
      rw [List.length_append]
      omega
    · rw [List.length_append]
      omega
  simp only [Span.slice, Span.shift]
  rw [hdrop added, show before ++ after = before ++ ([] ++ after) from rfl,
    show span.start = span.start + ([] : Bytes).length from rfl, hdrop []]
  congr 1
  simp only [List.length_nil]
  omega

/-- A span that does not go across the insertion reads what it did, wherever it is now. -/
theorem slice_insert (h : span.Beside before.length) :
    (span.insert before.length added.length).slice (before ++ (added ++ after))
      = span.slice (before ++ after) := by
  unfold Span.insert
  split
  · next hstop => rw [slice_append_left hstop, slice_append_left hstop]
  · next hstop => rw [if_pos (h.resolve_left hstop), slice_insert_behind (h.resolve_left hstop)]

/-- What is between the quotes of a string reads so too: they are inside of the span, and it moves as a
whole. -/
theorem contents_insert (hpos : 0 < span.stop) (h : span.Beside before.length) :
    (span.insert before.length added.length).contents (before ++ (added ++ after))
      = span.contents (before ++ after) := by
  rw [Span.contents_eq_slice _ hpos]
  -- A string ends in front of the insertion or starts behind it. In the second case both quotes move.
  unfold Span.insert
  split
  · next hstop =>
    have hinner : (⟨span.start + 1, span.stop - 1⟩ : Span).stop ≤ before.length :=
      Nat.le_trans (Nat.sub_le ..) hstop
    rw [Span.contents_eq_slice _ hpos, slice_append_left hinner, slice_append_left hinner]
  · next hstop =>
    have hstart := h.resolve_left hstop
    have hshift : (⟨span.start + added.length + 1, span.stop + added.length - 1⟩ : Span)
        = (⟨span.start + 1, span.stop - 1⟩ : Span).shift added.length := by
      simp only [Span.shift, Span.mk.injEq]
      omega
    rw [if_pos hstart, Span.contents_eq_slice _ (show 0 < span.stop + added.length by omega)]
    exact (congrArg (Span.slice · _) hshift).trans (slice_insert_behind (Nat.le_succ_of_le hstart))

end Slices

/-! ## Rendering -/

/-- What is read of the layer does not go across the offset. A string has quotes around it. -/
def Node.Beside {α : Type} (q : Nat) : Node α → Prop
  | .text span => span.Beside q
  | .command name args =>
    name.Beside q ∧ ∀ arg ∈ args, arg.kind = .string → 0 < arg.span.stop ∧ arg.span.Beside q
  | _ => True

/-- What is read of a layer are leaves of its tree, and none of them goes across the offset. -/
theorem Node.beside_of_splits {tree : Tree} {layer : Node Tree} {q n : Nat} (h : tree.Splits q)
    (hlayer : tree.Has layer) (hwithin : layer.Within n) : layer.Beside q := by
  -- Texts, names and strings are leaves; nothing else of a layer is read from the source.
  cases layer with
  | text span =>
    have hmark : Mark.text span ∈ tree.marks := hlayer.marks (by rw [Tree.marks_text]; simp)
    exact h span (Mark.mem_leaves hmark rfl)
  | command name args =>
    refine ⟨h name (Mark.mem_leaves hlayer.marks_name rfl), fun arg harg hkind => ?_⟩
    have hleaf : (Mark.argument arg.kind arg.span).isLeaf = true := by
      rw [hkind]
      rfl
    exact ⟨(hwithin.2 arg harg hkind).1,
      h arg.span (Mark.mem_leaves (hlayer.marks_argument harg arg.mem_marks) hleaf)⟩
  | _ => trivial

/-- A layer beside the insertion is read as before. -/
theorem Node.Beside.alike {α : Type} {source : Bytes} {q : Nat} {layer : Node α}
    (h : layer.Beside q) (hq : q ≤ source.length) (added : Bytes) :
    layer.Alike (Span.insert q added.length) source (splice source q q added) := by
  obtain ⟨before, after, rfl, rfl⟩ : ∃ before after, source = before ++ after ∧ before.length = q :=
    ⟨source.take q, source.drop q, (List.take_append_drop q source).symm, List.length_take_of_le hq⟩
  rw [splice_insert]
  -- What is beside the insertion is read as before: texts and names in full, strings without their quotes.
  cases layer with
  | text span => exact slice_insert h
  | command name args =>
    refine ⟨slice_insert h.1, fun arg harg hkind => ?_⟩
    obtain ⟨hpos, hbeside⟩ := h.2 arg harg hkind
    exact contents_insert hpos hbeside
  | _ => trivial

/-- An offset behind an insertion is one further to the right. -/
theorem Span.Beside.insert {p q k : Nat} {span : Span} (h : span.Beside p) (hq : span.Beside q)
    (hle : p ≤ q) : (span.insert p k).Beside (q + k) := by
  unfold Span.insert Span.shift
  unfold Beside at *
  split
  · exact .inl (by omega)
  · next hstop =>
    rw [if_pos (h.resolve_left hstop)]
    show span.stop + k ≤ q + k ∨ q + k ≤ span.start + k
    omega

/-- A layer that is beside two offsets is beside the second one when bytes are put in at the first. -/
theorem Node.Beside.insert {α : Type} {p q k : Nat} {layer : Node α} (h : layer.Beside p)
    (hq : layer.Beside q) (hle : p ≤ q) : (layer.respan (Span.insert p k)).Beside (q + k) := by
  cases layer with
  | text span => exact Span.Beside.insert h hq hle
  | command name args =>
    refine ⟨h.1.insert hq.1 hle, fun arg harg hkind => ?_⟩
    obtain ⟨found, hfound, rfl⟩ := List.mem_map.1 harg
    rw [Argument.kind_respan] at hkind
    obtain ⟨hpos, hbeside⟩ := h.2 found hfound hkind
    rw [Argument.span_respan]
    refine ⟨?_, hbeside.insert (hq.2 found hfound hkind).2 hle⟩
    -- The string still ends behind its start, whether it has moved or not.
    unfold Span.insert Span.shift
    split
    · exact hpos
    · split <;> exact Nat.add_pos_left hpos k
  | _ => trivial

/-- One change of a source after the other. -/
theorem Node.Alike.trans {α : Type} {f g : Span → Span} {source middle other : Bytes}
    {layer : Node α} (h : layer.Alike f source middle)
    (hmore : (layer.respan f).Alike g middle other) : layer.Alike (g ∘ f) source other := by
  cases layer with
  | text span => exact Eq.trans hmore h
  | command name args =>
    refine ⟨hmore.1.trans h.1, fun arg harg hkind => ?_⟩
    have hsecond := hmore.2 (arg.respan f) (List.mem_map_of_mem harg)
      (by rw [Argument.kind_respan, hkind])
    rw [Argument.span_respan] at hsecond
    exact hsecond.trans (h.2 arg harg hkind)
  | _ => trivial

/-- Over a source that is read alike a document gives the same HTML, or the same failure. -/
theorem render_respan {source other : Bytes} {tree : Tree} {f : Span → Span}
    (h : ∀ layer, tree.Has layer → layer.Alike f source other) :
    Html.render other (tree.toArena.respan f)
      = (Html.render source tree.toArena).mapError (Failure.respan f) := by
  rw [← Tree.toArena_respan, Html.render, Html.render, Arena.walk_toArena, Arena.walk_toArena]
  exact Html.renderTree_respan h

end TildeMarkup
