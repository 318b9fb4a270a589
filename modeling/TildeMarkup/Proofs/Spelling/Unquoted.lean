import TildeMarkup.Proofs.Document.Strings
import TildeMarkup.Proofs.Spelling.Placement

/-!
# Spellings without their strings

`Part.unquoted` and `Arg.unquoted` are the source of a spelling with its string arguments deleted,
and `Part.dropSpans_eq`, `Arg.dropSpans_eq` say so. Only the strings inside of a piece have a part in
it, so it makes no difference whether those of the whole tree are deleted or those of one argument
(`dropSpans_of_surrounds`).
-/

namespace TildeMarkup

namespace Spelling

/-- Marks that stand elsewhere delete nothing, so two lists that agree on a stretch delete the same of
it. -/
theorem covers_strings_congr {marks other : List Mark} {lo hi : Nat}
    (h : ∀ mark, mark.isLeaf = true → mark.span.start < hi → lo < mark.span.stop →
      (mark ∈ marks ↔ mark ∈ other)) {i : Nat} (hlo : lo ≤ i) (hhi : i < hi) :
    Covers (Mark.strings marks) i = Covers (Mark.strings other) i := by
  rw [Bool.eq_iff_iff, covers_iff, covers_iff]
  refine exists_congr fun span => and_congr_left fun hspan => ?_
  rw [Mark.mem_strings, Mark.mem_strings]
  refine h (.argument .string span) rfl ?_ ?_
  · exact Nat.lt_of_le_of_lt hspan.1 hhi
  · exact Nat.lt_of_le_of_lt hlo hspan.2

/-- What is placed in front of a piece has no part in it, and what is placed after it has none. -/
theorem dropSpans_placed {marks more : List Mark} {n hi : Nat} (front back : Bytes)
    (h : Placed n marks (n + front.length)) (hmore : Placed (n + front.length) more hi) :
    dropSpans (Mark.strings (marks ++ more)) n (front ++ back)
      = dropSpans (Mark.strings marks) n front
        ++ dropSpans (Mark.strings more) (n + front.length) back := by
  rw [dropSpans_append]
  congr 1
  · refine dropSpans_congr fun i hlo hhi => ?_
    refine covers_strings_congr (fun mark _ hstart hstop => ?_) hlo hhi
    rw [List.mem_append]
    refine or_iff_left fun hmark => ?_
    have hbounds := hmore.bounds mark hmark
    omega
  · refine dropSpans_congr fun i hlo hhi => ?_
    refine covers_strings_congr (fun mark _ hstart hstop => ?_) hlo hhi
    rw [List.mem_append]
    refine or_iff_right fun hmark => ?_
    have hbounds := h.bounds mark hmark
    omega

/-- The marks around a piece delete nothing of it, since the leaves among them stand beside it. -/
theorem dropSpans_of_surrounds {marks inner : List Mark} {n : Nat} {bytes : Bytes}
    (h : Surrounds marks inner n (n + bytes.length)) :
    dropSpans (Mark.strings marks) n bytes = dropSpans (Mark.strings inner) n bytes := by
  obtain ⟨front, back, rfl, hapart⟩ := h
  refine dropSpans_congr fun i hlo hhi => ?_
  refine covers_strings_congr (fun mark hleaf hstart hstop => ?_) hlo hhi
  -- A leaf that is not in the piece lies on one side of it; what goes around it is no leaf.
  have hnot (hmark : mark ∈ front ++ back) : False := by
    rcases hapart mark hmark with hbefore | hafter | ⟨hscope, _⟩
    · omega
    · omega
    · rw [hleaf] at hscope
      cases hscope
  rw [List.mem_append, List.mem_append]
  constructor
  · rintro ((hmark | hmark) | hmark)
    · exact (hnot (List.mem_append_left _ hmark)).elim
    · exact hmark
    · exact (hnot (List.mem_append_right _ hmark)).elim
  · exact fun hmark => .inl (.inr hmark)

/-- Where all marks stand in the middle of a piece, the bytes at both ends of it are kept. -/
theorem dropSpans_between {marks : List Mark} {n : Nat} (front bytes back : Bytes)
    (h : Placed (n + front.length) marks (n + front.length + bytes.length)) :
    dropSpans (Mark.strings marks) n (front ++ (bytes ++ back))
      = front ++ (dropSpans (Mark.strings marks) (n + front.length) bytes ++ back) := by
  have hfront : Placed n [] (n + front.length) := .nil (Nat.le_add_right n _)
  have hback : Placed (n + front.length + bytes.length) [] (n + front.length + bytes.length) :=
    .nil (Nat.le_refl _)
  have hinner := dropSpans_placed bytes back h hback
  have houter := dropSpans_placed front (bytes ++ back) hfront (h.append hback)
  rw [List.nil_append, List.append_nil] at houter
  rw [List.append_nil] at hinner
  rw [houter, hinner]
  have hnone : Mark.strings [] = [] := rfl
  rw [hnone, dropSpans_none, dropSpans_none]

/-! ## What is left of a spelling -/

mutual

/-- The source of a part without its strings, whose delimiters go as well. -/
def Part.unquoted : Part → Bytes
  | .blank b => [b]
  | .text bytes => bytes
  | .run _ pieces ending => Part.unquotedAll pieces ++ ending.bytes
  | .call name gap listed args =>
    callHead name gap listed ++ (Arg.unquotedAll args ++ callTail listed)

/-- The source of parts one after the other, without their strings. -/
def Part.unquotedAll : List Part → Bytes
  | [] => []
  | part :: rest => part.unquoted ++ Part.unquotedAll rest

/-- The source of an argument without its strings: nothing, if it is one. -/
def Arg.unquoted : Arg → Bytes
  | .blank b => [b]
  | .comma => [TildeMarkup.comma]
  | .ident letters => letters
  | .string _ => []
  | .inline part => Bracket.square.opener :: (part.unquoted ++ [Bracket.square.closer])
  | .block parts => Bracket.curly.opener :: (Part.unquotedAll parts ++ [Bracket.curly.closer])

/-- The source of arguments one after the other, without their strings. -/
def Arg.unquotedAll : List Arg → Bytes
  | [] => []
  | arg :: rest => arg.unquoted ++ Arg.unquotedAll rest

end

/-- The brackets of an argument are no string, so its strings are those of what it holds. -/
theorem Arg.strings_inline (n : Nat) (part : Part) :
    Mark.strings ((Arg.inline part).marks n) = Mark.strings (part.marks (n + 1)) := by
  rcases Part.trees_cases (n + 1) part with hnone | ⟨tree, htree⟩
  · rw [Arg.marks, Arg.arguments, Part.marks, hnone]
    rfl
  · rw [Arg.marks_inline htree]
    rfl

mutual

/-- Deleting the strings of a part from its bytes leaves its source without them, by induction on it. -/
theorem Part.dropSpans_eq : ∀ (part : Part) (n : Nat),
    dropSpans (Mark.strings (part.marks n)) n part.bytes = part.unquoted
  | .blank b, n => dropSpans_none
  | .text bytes, n => by
    have hmarks : (Part.text bytes).marks n = [.text ⟨n, n + bytes.length⟩] :=
      (flatMap_singleton_marks _).trans (Tree.marks_text _)
    rw [hmarks]
    exact dropSpans_none
  | .run bracketed pieces ending, n => by
    have hpieces := dropSpans_between [] (Part.bytesAll pieces) ending.bytes
      (Part.placedAll pieces n)
    rw [Part.marks_run, Part.unquoted, ← Part.dropSpans_all pieces n]
    exact hpieces
  | .call name gap listed args, n => by
    have hplaced := Arg.placedAll args (argsStart n name gap listed)
    rw [argsStart_eq] at hplaced
    have hargs := dropSpans_between (callHead name gap listed) (Arg.bytesAll args) (callTail listed)
      hplaced
    rw [Part.marks_call, Part.bytes_call_eq, argsStart_eq, Part.unquoted,
      ← Arg.dropSpans_all args (n + (callHead name gap listed).length)]
    exact hargs
termination_by structural part => part

theorem Part.dropSpans_all : ∀ (parts : List Part) (n : Nat),
    dropSpans (Mark.strings (Part.marksAll n parts)) n (Part.bytesAll parts)
      = Part.unquotedAll parts
  | [], n => rfl
  | part :: rest, n => by
    rw [Part.marksAll_cons, Part.bytesAll,
      dropSpans_placed _ _ (Part.placed part n) (Part.placedAll rest _), Part.dropSpans_eq part n,
      Part.dropSpans_all rest _]
    rfl
termination_by structural parts => parts

theorem Arg.dropSpans_eq : ∀ (arg : Arg) (n : Nat),
    dropSpans (Mark.strings (arg.marks n)) n arg.bytes = arg.unquoted
  | .blank b, n => dropSpans_none
  | .comma, n => dropSpans_none
  | .ident letters, n => dropSpans_none
  | .string raw, n => by
    have hspans : Mark.strings ((Arg.string raw).marks n) = [⟨n, n + raw.length + 2⟩] := rfl
    rw [hspans]
    refine dropSpans_whole fun i hlo hhi => covers_iff.2 ⟨_, List.mem_singleton_self _, hlo, ?_⟩
    rw [Arg.length_bytes_string] at hhi
    exact hhi
  | .inline part, n => by
    have hpart := dropSpans_between [Bracket.square.opener] part.bytes [Bracket.square.closer]
      (Part.placed part (n + 1))
    rw [Arg.strings_inline, Arg.unquoted, ← Part.dropSpans_eq part (n + 1)]
    exact hpart
  | .block parts, n => by
    have hparts := dropSpans_between [Bracket.curly.opener] (Part.bytesAll parts)
      [Bracket.curly.closer] (Part.placedAll parts (n + 1))
    rw [Arg.marks_block, Arg.unquoted, ← Part.dropSpans_all parts (n + 1)]
    exact hparts
termination_by structural arg => arg

theorem Arg.dropSpans_all : ∀ (args : List Arg) (n : Nat),
    dropSpans (Mark.strings (Arg.marksAll n args)) n (Arg.bytesAll args) = Arg.unquotedAll args
  | [], n => rfl
  | arg :: rest, n => by
    rw [Arg.marksAll_cons, Arg.bytesAll,
      dropSpans_placed _ _ (Arg.placed arg n) (Arg.placedAll rest _), Arg.dropSpans_eq arg n,
      Arg.dropSpans_all rest _]
    rfl
termination_by structural args => args

end

/-! ## Pieces of a document -/

section Call

variable {parts : List Part} {n : Nat} {name gap : Bytes} {listed : Bool}

theorem Holds.dropSpans_arg {front back : List Arg} {arg : Arg}
    (h : Holds parts n (.call name gap listed (front ++ arg :: back))) :
    dropSpans (documentTree parts).strings (argsStart n name gap listed + (Arg.bytesAll front).length)
        (Span.slice ⟨argsStart n name gap listed + (Arg.bytesAll front).length,
          argsStart n name gap listed + (Arg.bytesAll front).length + arg.bytes.length⟩
          (Part.bytesAll parts))
      = arg.unquoted := by
  rw [(at_arg h.located).slice]
  exact (dropSpans_of_surrounds h.surrounds_arg).trans (Arg.dropSpans_eq arg _)

/-- The parentheses of a list and what stands between them, without the strings of the document. -/
theorem Holds.dropSpans_list {args : List Arg} (h : Holds parts n (.call name gap true args)) :
    dropSpans (documentTree parts).strings (n + 1 + name.length + gap.length)
        (Span.slice ⟨n + 1 + name.length + gap.length,
          argsStart n name gap true + (Arg.bytesAll args).length + 1⟩ (Part.bytesAll parts))
      = Bracket.round.opener :: (Arg.unquotedAll args ++ [Bracket.round.closer]) := by
  have hstart : argsStart n name gap true = n + 1 + name.length + gap.length + 1 := rfl
  have hat := h.located
  rw [Part.bytes, if_pos rfl] at hat
  have hlist := hat.tail.right.right
  have hname : Apart (.name ⟨n + 1, n + 1 + name.length⟩) (n + 1 + name.length + gap.length)
      (argsStart n name gap true + (Arg.bytesAll args).length + 1) :=
    .inl (Nat.le_add_right _ _)
  have hcall := h.surrounds
  rw [Part.marks_call] at hcall
  -- The marks around the list are those around the command, and the name.
  have hsurrounds := hcall.trans ((Surrounds.refl _ _ _).cons hname) (by omega) (by
    have hlength := Part.length_bytes_call n name gap true args
    rw [if_pos rfl] at hlength
    omega)
  generalize n + 1 + name.length + gap.length = q at *
  have hlength : argsStart n name gap true + (Arg.bytesAll args).length + 1
      = q + (Bracket.round.opener :: (Arg.bytesAll args ++ [Bracket.round.closer])).length := by
    rw [List.length_cons, List.length_append, List.length_singleton]
    omega
  rw [hlength] at hsurrounds ⊢
  have hplaced := Arg.placedAll args (q + 1)
  rw [hlist.slice, Tree.strings, dropSpans_of_surrounds hsurrounds, hstart,
    ← Arg.dropSpans_all args (q + 1)]
  exact dropSpans_between [Bracket.round.opener] (Arg.bytesAll args) [Bracket.round.closer] hplaced

end Call

end Spelling

end TildeMarkup
