import TildeMarkup.Proofs.Spelling.Holds

/-!
# Where marks stand

The marks of a part stand inside the bytes of the part, its leaves one after the other (`Placed`).
Marks that are not those of a part inside lie beside it or around it (`Apart`), so that the marks of
an argument are told from all others by their places alone.
-/

namespace TildeMarkup.Spelling

/-- The marks stand between two offsets, the leaves among them one after the other. -/
structure Placed (lo : Nat) (marks : List Mark) (hi : Nat) : Prop where
  bounds : ∀ mark ∈ marks,
    lo ≤ mark.span.start ∧ mark.span.start ≤ mark.span.stop ∧ mark.span.stop ≤ hi
  leaves : Ascending lo (Mark.leaves marks) hi

namespace Placed

variable {lo mid hi : Nat} {marks more : List Mark}

theorem nil (h : lo ≤ hi) : Placed lo [] hi :=
  ⟨fun _ hmark => absurd hmark List.not_mem_nil, .nil h⟩

/-- Marks up to some offset, and marks from there on, stand one after the other. -/
theorem append (h : Placed lo marks mid) (hmore : Placed mid more hi) :
    Placed lo (marks ++ more) hi where
  bounds mark hmark := by
    have hlo := h.leaves.le
    have hhi := hmore.leaves.le
    rcases List.mem_append.1 hmark with hmark | hmark
    · obtain ⟨hstart, hspan, hstop⟩ := h.bounds mark hmark
      exact ⟨hstart, hspan, by omega⟩
    · obtain ⟨hstart, hspan, hstop⟩ := hmore.bounds mark hmark
      exact ⟨by omega, hspan, hstop⟩
  leaves := by
    rw [Mark.leaves_append]
    exact h.leaves.append hmore.leaves

/-- A leaf stands by itself wherever its span does. -/
theorem leaf {mark : Mark} (hleaf : mark.isLeaf = true) (hlo : lo ≤ mark.span.start)
    (hspan : mark.span.start ≤ mark.span.stop) (hhi : mark.span.stop ≤ hi) :
    Placed lo [mark] hi where
  bounds other hother := by
    rcases List.mem_singleton.1 hother with rfl
    exact ⟨hlo, hspan, hhi⟩
  leaves := by
    have hleaves : Mark.leaves [mark] = [mark.span] := by
      rw [Mark.leaves, List.filter_cons_of_pos hleaf]
      rfl
    rw [hleaves]
    exact .singleton hlo hspan hhi

/-- An argument in brackets goes around what it holds, so its mark comes in front of those. -/
theorem scope {mark : Mark} (hscope : mark.isLeaf = false) (hstart : mark.span.start = lo)
    (hstop : mark.span.stop = hi) (h : Placed (lo + 1) marks mid) (hhi : mid ≤ hi) :
    Placed lo (mark :: marks) hi where
  bounds other hother := by
    have hle := h.leaves.le
    rcases List.mem_cons.1 hother with rfl | hother
    · exact ⟨by omega, by omega, by omega⟩
    · obtain ⟨hstart, hspan, hstop⟩ := h.bounds other hother
      exact ⟨by omega, hspan, by omega⟩
  leaves := by
    -- The mark itself is no leaf, so the leaves are those of what it goes around.
    have hleaves : Mark.leaves (mark :: marks) = Mark.leaves marks := by
      rw [Mark.leaves, List.filter_cons_of_neg (by rw [hscope]; exact Bool.false_ne_true)]
      rfl
    have hafter : Ascending mid [] hi := .nil hhi
    have happend := (h.leaves.weaken (Nat.le_succ lo)).append hafter
    rw [List.append_nil] at happend
    rw [hleaves]
    exact happend

theorem weaken (h : Placed lo marks mid) (hhi : mid ≤ hi) : Placed lo marks hi := by
  have happend := h.append (nil hhi)
  rw [List.append_nil] at happend
  exact happend

end Placed

/-! ## The marks of a spelling -/

def Part.marks (n : Nat) (part : Part) : List Mark :=
  (part.trees n).flatMap Tree.marks

def Part.marksAll (n : Nat) (parts : List Part) : List Mark :=
  (Part.treesAll n parts).flatMap Tree.marks

def Arg.marks (n : Nat) (arg : Arg) : List Mark :=
  (arg.arguments n).flatMap Argument.marks

def Arg.marksAll (n : Nat) (args : List Arg) : List Mark :=
  (Arg.argumentsAll n args).flatMap Argument.marks

theorem Part.marksAll_cons (n : Nat) (part : Part) (rest : List Part) :
    Part.marksAll n (part :: rest)
      = part.marks n ++ Part.marksAll (n + part.bytes.length) rest := by
  rw [marksAll, treesAll, List.flatMap_append]
  rfl

theorem Part.marksAll_append (n : Nat) (front back : List Part) :
    Part.marksAll n (front ++ back)
      = Part.marksAll n front ++ Part.marksAll (n + (Part.bytesAll front).length) back := by
  rw [marksAll, treesAll_append, List.flatMap_append]
  rfl

theorem Arg.marksAll_cons (n : Nat) (arg : Arg) (rest : List Arg) :
    Arg.marksAll n (arg :: rest) = arg.marks n ++ Arg.marksAll (n + arg.bytes.length) rest := by
  rw [marksAll, argumentsAll, List.flatMap_append]
  rfl

theorem Arg.marksAll_append (n : Nat) (front back : List Arg) :
    Arg.marksAll n (front ++ back)
      = Arg.marksAll n front ++ Arg.marksAll (n + (Arg.bytesAll front).length) back := by
  rw [marksAll, argumentsAll_append, List.flatMap_append]
  rfl

theorem flatMap_singleton_marks (tree : Tree) : [tree].flatMap Tree.marks = tree.marks := by
  rw [List.flatMap_cons, List.flatMap_nil, List.append_nil]

theorem Part.marks_run (n : Nat) (bracketed : Bool) (pieces : List Part) (ending : Ending) :
    (Part.run bracketed pieces ending).marks n = Part.marksAll n pieces := by
  cases bracketed with
  | true => exact (flatMap_singleton_marks _).trans (Tree.marks_group _)
  | false => exact (flatMap_singleton_marks _).trans (Tree.marks_paragraph _)

theorem Part.marks_call (n : Nat) (name gap : Bytes) (listed : Bool) (args : List Arg) :
    (Part.call name gap listed args).marks n
      = .name ⟨n + 1, n + 1 + name.length⟩
        :: Arg.marksAll (argsStart n name gap listed) args :=
  (flatMap_singleton_marks _).trans (Tree.marks_command _ _)

theorem Arg.marks_block (n : Nat) (parts : List Part) :
    (Arg.block parts).marks n
      = .argument .block ⟨n, n + (Part.bytesAll parts).length + 2⟩ :: Part.marksAll (n + 1) parts := by
  rw [marks, arguments, List.flatMap_cons, List.flatMap_nil, List.append_nil, Argument.marks_block]
  rfl

theorem Arg.marks_inline {n : Nat} {part : Part} {tree : Tree} (h : part.trees (n + 1) = [tree]) :
    (Arg.inline part).marks n
      = .argument .inline ⟨n, n + part.bytes.length + 2⟩ :: part.marks (n + 1) := by
  rw [marks, arguments, Part.marks, h, List.map_singleton, List.flatMap_cons, List.flatMap_nil,
    List.append_nil, Argument.marks_inline, flatMap_singleton_marks]

/-- A part that is a blank stands for nothing, every other part for one node. -/
theorem Part.trees_cases (n : Nat) (part : Part) :
    part.trees n = [] ∨ ∃ tree, part.trees n = [tree] := by
  cases part with
  | blank => exact .inl rfl
  | run bracketed => cases bracketed <;> exact .inr ⟨_, rfl⟩
  | _ => exact .inr ⟨_, rfl⟩

mutual

/-- The marks of a part stand between its two ends, by induction on the spelling. -/
theorem Part.placed : ∀ (part : Part) (n : Nat),
    Placed n (part.marks n) (n + part.bytes.length)
  | .blank b, n => .nil (Nat.le_add_right n _)
  | .text bytes, n => by
    have hmarks : (Part.text bytes).marks n = [.text ⟨n, n + bytes.length⟩] :=
      (flatMap_singleton_marks _).trans (Tree.marks_text _)
    rw [hmarks]
    exact .leaf rfl (Nat.le_refl n) (Nat.le_add_right n _) (Nat.le_refl _)
  | .run bracketed pieces ending, n => by
    rw [Part.marks_run]
    refine (Part.placedAll pieces n).weaken ?_
    rw [Part.bytes, List.length_append]
    omega
  | .call name gap listed args, n => by
    rw [Part.marks_call, Part.length_bytes_call]
    have hname : Placed n [.name ⟨n + 1, n + 1 + name.length⟩] (argsStart n name gap listed) := by
      refine .leaf rfl ?_ ?_ ?_
      · exact Nat.le_succ n
      · exact Nat.le_add_right (n + 1) _
      · show n + 1 + name.length ≤ argsStart n name gap listed
        rw [argsStart]
        omega
    exact hname.append ((Arg.placedAll args _).weaken (Nat.le_add_right _ _))
termination_by structural part => part

theorem Part.placedAll : ∀ (parts : List Part) (n : Nat),
    Placed n (Part.marksAll n parts) (n + (Part.bytesAll parts).length)
  | [], n => .nil (Nat.le_refl n)
  | part :: rest, n => by
    rw [Part.marksAll_cons, Part.bytesAll, List.length_append, ← Nat.add_assoc]
    exact (Part.placed part n).append (Part.placedAll rest _)
termination_by structural parts => parts

theorem Arg.placed : ∀ (arg : Arg) (n : Nat), Placed n (arg.marks n) (n + arg.bytes.length)
  | .blank b, n => .nil (Nat.le_add_right n _)
  | .comma, n => .nil (Nat.le_add_right n _)
  | .ident letters, n =>
    .leaf rfl (Nat.le_refl n) (Nat.le_add_right n _) (Nat.le_refl _)
  | .string raw, n => by
    rw [Arg.length_bytes_string]
    refine .leaf rfl (Nat.le_refl n) ?_ (Nat.le_refl _)
    show n ≤ n + raw.length + 2
    omega
  | .inline part, n => by
    rw [Arg.length_bytes_inline]
    rcases Part.trees_cases (n + 1) part with hnone | ⟨tree, htree⟩
    · have hmarks : (Arg.inline part).marks n = [] := by
        rw [Arg.marks, Arg.arguments, hnone]
        rfl
      rw [hmarks]
      exact .nil (by omega)
    · rw [Arg.marks_inline htree]
      exact .scope rfl rfl rfl (Part.placed part (n + 1)) (by omega)
  | .block parts, n => by
    rw [Arg.length_bytes_block, Arg.marks_block]
    exact .scope rfl rfl rfl (Part.placedAll parts (n + 1)) (by omega)
termination_by structural arg => arg

theorem Arg.placedAll : ∀ (args : List Arg) (n : Nat),
    Placed n (Arg.marksAll n args) (n + (Arg.bytesAll args).length)
  | [], n => .nil (Nat.le_refl n)
  | arg :: rest, n => by
    rw [Arg.marksAll_cons, Arg.bytesAll, List.length_append, ← Nat.add_assoc]
    exact (Arg.placed arg n).append (Arg.placedAll rest _)
termination_by structural args => args

end

/-! ## Marks beside a part, and around it -/

/-- The mark ends before the stretch or starts after it, or it is no leaf and goes around it. -/
def Apart (mark : Mark) (lo hi : Nat) : Prop :=
  mark.span.stop ≤ lo ∨ hi ≤ mark.span.start
    ∨ (mark.isLeaf = false ∧ mark.span.start ≤ lo ∧ hi ≤ mark.span.stop)

theorem Apart.mono {mark : Mark} {lo hi lo' hi' : Nat} (h : Apart mark lo hi) (hlo : lo ≤ lo')
    (hhi : hi' ≤ hi) : Apart mark lo' hi' := by
  rcases h with h | h | h
  · exact .inl (by omega)
  · exact .inr (.inl (by omega))
  · exact .inr (.inr ⟨h.1, by omega, by omega⟩)

/-- All of the marks but those in the middle lie apart from a stretch. -/
def Surrounds (marks inner : List Mark) (lo hi : Nat) : Prop :=
  ∃ front back, marks = front ++ inner ++ back ∧ ∀ mark ∈ front ++ back, Apart mark lo hi

namespace Surrounds

variable {marks middle inner : List Mark} {lo hi lo' hi' : Nat}

theorem refl (marks : List Mark) (lo hi : Nat) : Surrounds marks marks lo hi :=
  ⟨[], [], by rw [List.nil_append, List.append_nil], fun _ h => absurd h List.not_mem_nil⟩

theorem trans (h : Surrounds marks middle lo hi) (hinner : Surrounds middle inner lo' hi')
    (hlo : lo ≤ lo') (hhi : hi' ≤ hi) : Surrounds marks inner lo' hi' := by
  obtain ⟨front, back, rfl, hapart⟩ := h
  obtain ⟨front', back', rfl, hapart'⟩ := hinner
  refine ⟨front ++ front', back' ++ back, by simp only [List.append_assoc], fun mark hmark => ?_⟩
  simp only [List.mem_append] at hapart hapart' hmark
  -- Marks around the outer part are apart from the inner one all the more.
  rcases hmark with (hmark | hmark) | (hmark | hmark)
  · exact (hapart mark (.inl hmark)).mono hlo hhi
  · exact hapart' mark (.inl hmark)
  · exact hapart' mark (.inr hmark)
  · exact (hapart mark (.inr hmark)).mono hlo hhi

theorem cons {mark : Mark} (h : Surrounds marks inner lo hi) (hmark : Apart mark lo hi) :
    Surrounds (mark :: marks) inner lo hi := by
  obtain ⟨front, back, rfl, hapart⟩ := h
  refine ⟨mark :: front, back, by simp only [List.cons_append], fun other hother => ?_⟩
  rw [List.cons_append] at hother
  rcases List.mem_cons.1 hother with rfl | hother
  · exact hmark
  · exact hapart other hother

end Surrounds

/-- The marks of one part among those of others: the rest lies in front of it or behind it. -/
theorem Part.surrounds_append (n : Nat) (front back : List Part) (part : Part) :
    Surrounds (Part.marksAll n (front ++ part :: back))
      (part.marks (n + (Part.bytesAll front).length)) (n + (Part.bytesAll front).length)
      (n + (Part.bytesAll front).length + part.bytes.length) := by
  rw [Part.marksAll_append, Part.marksAll_cons]
  refine ⟨_, _, (List.append_assoc _ _ _).symm, fun mark hmark => ?_⟩
  rcases List.mem_append.1 hmark with hmark | hmark
  · exact .inl ((Part.placedAll front n).bounds mark hmark).2.2
  · exact .inr (.inl ((Part.placedAll back _).bounds mark hmark).1)

theorem Arg.surrounds_append (n : Nat) (front back : List Arg) (arg : Arg) :
    Surrounds (Arg.marksAll n (front ++ arg :: back))
      (arg.marks (n + (Arg.bytesAll front).length)) (n + (Arg.bytesAll front).length)
      (n + (Arg.bytesAll front).length + arg.bytes.length) := by
  rw [Arg.marksAll_append, Arg.marksAll_cons]
  refine ⟨_, _, (List.append_assoc _ _ _).symm, fun mark hmark => ?_⟩
  rcases List.mem_append.1 hmark with hmark | hmark
  · exact .inl ((Arg.placedAll front n).bounds mark hmark).2.2
  · exact .inr (.inl ((Arg.placedAll back _).bounds mark hmark).1)

/-- The marks of an argument among those of its command, whose name stands in front. -/
theorem Part.surrounds_call (n : Nat) (name gap : Bytes) (listed : Bool) (front back : List Arg)
    (arg : Arg) :
    Surrounds ((Part.call name gap listed (front ++ arg :: back)).marks n)
      (arg.marks (argsStart n name gap listed + (Arg.bytesAll front).length))
      (argsStart n name gap listed + (Arg.bytesAll front).length)
      (argsStart n name gap listed + (Arg.bytesAll front).length + arg.bytes.length) := by
  rw [Part.marks_call]
  refine (Arg.surrounds_append _ front back arg).cons (.inl ?_)
  show n + 1 + name.length ≤ _
  rw [argsStart]
  omega

/-- The marks of the part in square brackets among those of the argument. -/
theorem Arg.surrounds_inline (n : Nat) (part : Part) :
    Surrounds ((Arg.inline part).marks n) (part.marks (n + 1)) (n + 1)
      (n + 1 + part.bytes.length) := by
  rcases Part.trees_cases (n + 1) part with hnone | ⟨tree, htree⟩
  · -- a blank stands for no node: there are no marks, inside or around
    have houter : (Arg.inline part).marks n = [] := by
      rw [Arg.marks, Arg.arguments, hnone]
      rfl
    have hinner : part.marks (n + 1) = [] := by
      rw [Part.marks, hnone]
      rfl
    rw [houter, hinner]
    exact .refl _ _ _
  · rw [Arg.marks_inline htree]
    refine (Surrounds.refl _ _ _).cons (.inr (.inr ⟨rfl, ?_, ?_⟩))
    · exact Nat.le_succ n
    · show n + 1 + part.bytes.length ≤ n + part.bytes.length + 2
      omega

/-- The marks of a part in braces among those of the argument. -/
theorem Arg.surrounds_block (n : Nat) (before after : List Part) (part : Part) :
    Surrounds ((Arg.block (before ++ part :: after)).marks n)
      (part.marks (n + 1 + (Part.bytesAll before).length)) (n + 1 + (Part.bytesAll before).length)
      (n + 1 + (Part.bytesAll before).length + part.bytes.length) := by
  rw [Arg.marks_block]
  refine (Part.surrounds_append (n + 1) before after part).cons (.inr (.inr ⟨rfl, ?_, ?_⟩))
  · show n ≤ n + 1 + (Part.bytesAll before).length
    omega
  · show n + 1 + (Part.bytesAll before).length + part.bytes.length
      ≤ n + (Part.bytesAll (before ++ part :: after)).length + 2
    rw [Part.bytesAll_append, Part.bytesAll]
    simp only [List.length_append]
    omega

/-- A part inside starts and ends between the two ends of the part around it. -/
theorem Part.Holds.range {n m : Nat} {part found : Part} (h : Part.Holds n part m found) :
    n ≤ m ∧ m + found.bytes.length ≤ n + part.bytes.length := by
  -- Each step outwards adds the bytes in front and those behind, and the delimiters of a scope.
  induction h with
  | self => exact ⟨Nat.le_refl _, Nat.le_refl _⟩
  | @run n _ bracketed ending part found front back _ ih =>
    have hlength : (Part.run bracketed (front ++ part :: back) ending).bytes.length
        = (Part.bytesAll front).length + part.bytes.length + (Part.bytesAll back).length
          + ending.bytes.length := by
      rw [Part.bytes, Part.bytesAll_append, Part.bytesAll]
      simp only [List.length_append]
      omega
    omega
  | @inline n _ name gap listed part found front back _ ih =>
    have hargs : (Arg.bytesAll (front ++ .inline part :: back)).length
        = (Arg.bytesAll front).length + (part.bytes.length + 2) + (Arg.bytesAll back).length := by
      have hlength := Arg.length_bytes_inline 0 part
      rw [Arg.bytesAll_append, Arg.bytesAll]
      simp only [List.length_append]
      omega
    have hcall := Part.length_bytes_call n name gap listed (front ++ .inline part :: back)
    have hstart := argsStart_eq n name gap listed
    omega
  | @block n _ name gap listed part found front back before after _ ih =>
    have hparts : (Part.bytesAll (before ++ part :: after)).length
        = (Part.bytesAll before).length + part.bytes.length + (Part.bytesAll after).length := by
      rw [Part.bytesAll_append, Part.bytesAll]
      simp only [List.length_append]
      omega
    have hargs : (Arg.bytesAll (front ++ .block (before ++ part :: after) :: back)).length
        = (Arg.bytesAll front).length + ((Part.bytesAll (before ++ part :: after)).length + 2)
          + (Arg.bytesAll back).length := by
      have hlength := Arg.length_bytes_block 0 (before ++ part :: after)
      rw [Arg.bytesAll_append, Arg.bytesAll]
      simp only [List.length_append]
      omega
    have hcall := Part.length_bytes_call n name gap listed
      (front ++ .block (before ++ part :: after) :: back)
    have hstart := argsStart_eq n name gap listed
    omega

/-- The marks of a part inside among those of the whole part, by induction on the way to it. -/
theorem Part.Holds.surrounds {n m : Nat} {part found : Part} (h : Part.Holds n part m found) :
    Surrounds (part.marks n) (found.marks m) m (m + found.bytes.length) := by
  -- Each step outwards puts more marks around, and none of them reaches into the part.
  induction h with
  | self => exact .refl _ _ _
  | @run n _ bracketed ending part found front back hinner ih =>
    rw [Part.marks_run]
    exact (Part.surrounds_append n front back part).trans ih hinner.range.1 hinner.range.2
  | @inline n _ name gap listed part found front back hinner ih =>
    obtain ⟨hlo, hhi⟩ := hinner.range
    have harg := (Arg.surrounds_inline _ part).trans ih hlo hhi
    refine (Part.surrounds_call n name gap listed front back (.inline part)).trans harg ?_ ?_
    · omega
    · rw [Arg.length_bytes_inline]
      omega
  | @block n _ name gap listed part found front back before after hinner ih =>
    obtain ⟨hlo, hhi⟩ := hinner.range
    have harg := (Arg.surrounds_block _ before after part).trans ih hlo hhi
    refine (Part.surrounds_call n name gap listed front back _).trans harg ?_ ?_
    · omega
    · rw [Arg.length_bytes_block, Part.bytesAll_append, Part.bytesAll]
      simp only [List.length_append]
      omega

/-! ## The marks of a document -/

theorem marks_documentTree (parts : List Part) :
    (documentTree parts).marks = Part.marksAll 0 parts :=
  Tree.marks_group _

/-- All marks of a document stand in its source, the leaves one after the other. -/
theorem placed_documentTree (parts : List Part) :
    Placed 0 (documentTree parts).marks (Part.bytesAll parts).length := by
  have hplaced := Part.placedAll parts 0
  rw [Nat.zero_add] at hplaced
  rw [marks_documentTree]
  exact hplaced

theorem Holds.surrounds {parts : List Part} {m : Nat} {found : Part} (h : Holds parts m found) :
    Surrounds (documentTree parts).marks (found.marks m) m (m + found.bytes.length) := by
  obtain ⟨front, part, back, rfl, hholds⟩ := h
  have hpart := Part.surrounds_append 0 front back part
  rw [Nat.zero_add] at hpart
  rw [marks_documentTree]
  exact hpart.trans hholds.surrounds hholds.range.1 hholds.range.2

theorem Holds.surrounds_arg {parts : List Part} {n : Nat} {name gap : Bytes} {listed : Bool}
    {front back : List Arg} {arg : Arg}
    (h : Holds parts n (.call name gap listed (front ++ arg :: back))) :
    Surrounds (documentTree parts).marks
      (arg.marks (argsStart n name gap listed + (Arg.bytesAll front).length))
      (argsStart n name gap listed + (Arg.bytesAll front).length)
      (argsStart n name gap listed + (Arg.bytesAll front).length + arg.bytes.length) := by
  refine h.surrounds.trans (Part.surrounds_call n name gap listed front back arg) ?_ ?_
  · have hstart := argsStart_eq n name gap listed
    omega
  · have hcall := Part.length_bytes_call n name gap listed (front ++ arg :: back)
    rw [Arg.bytesAll_append, Arg.bytesAll] at hcall
    simp only [List.length_append] at hcall
    omega

/-- The marks of what an argument holds stand between its first byte and its last. -/
theorem Arg.inner_bounds {arg : Arg} {n : Nat} {a : Argument Tree} (ha : arg.arguments n = [a])
    {mark : Mark} (hmark : mark ∈ a.inner) :
    n < mark.span.start ∧ mark.span.stop < n + arg.bytes.length := by
  -- Only an argument in brackets holds marks, and the brackets keep them off its two ends.
  cases arg with
  | blank => cases ha
  | comma => cases ha
  | ident => cases ha; cases hmark
  | string => cases ha; cases hmark
  | inline part =>
    rw [Arg.length_bytes_inline]
    obtain ⟨tree, htree, rfl⟩ := List.map_eq_singleton_iff.1 ha
    have hpart : mark ∈ part.marks (n + 1) := by
      rw [Part.marks, htree]
      exact hmark
    obtain ⟨hstart, _, hstop⟩ := (Part.placed part (n + 1)).bounds mark hpart
    exact ⟨hstart, by omega⟩
  | block parts =>
    rw [Arg.length_bytes_block]
    cases ha
    obtain ⟨hstart, _, hstop⟩ := (Part.placedAll parts (n + 1)).bounds mark hmark
    exact ⟨hstart, by omega⟩

end TildeMarkup.Spelling
