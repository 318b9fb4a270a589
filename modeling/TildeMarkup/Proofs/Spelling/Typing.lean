import TildeMarkup.Proofs.Coverage
import TildeMarkup.Proofs.Document.Typing

/-!
# Parsed trees are well typed

The automata of the grammar say what follows what, so the nodes of a run and of blocks are of the kinds
that they should be (`Part.areRun`, `Part.areBlocks`). That a part fits where no braces are allowed
goes over to all parts inside of it (`Part.Holds.fits_false`).

A text ends in front of a tilde, of a line end, of the closer of its scope or of the end of the source.
So no line feed is next to it, unless the run ends with one (`Holds.lineEnd`).
-/

namespace TildeMarkup.Spelling

open TildeMarkup.Tree

/-! ## Sequences of nodes -/

/-- An automaton that takes a word has a step at each place of it. -/
theorem step_of_foldlM {α σ : Type} {step : σ → α → Option σ} {front back : List α} {a : α} {s : σ}
    (h : ((front ++ a :: back).foldlM step s).isSome = true) :
    ∃ before after, front.foldlM step s = some before ∧ step before a = some after
      ∧ (back.foldlM step after).isSome = true := by
  rw [List.foldlM_append] at h
  obtain ⟨last, hlast⟩ := Option.isSome_iff_exists.1 h
  obtain ⟨before, hfront, hrest⟩ := Option.bind_eq_some_iff.1 hlast
  rw [List.foldlM_cons] at hrest
  obtain ⟨after, hstep, hback⟩ := Option.bind_eq_some_iff.1 hrest
  exact ⟨before, after, hfront, hstep, Option.isSome_iff_exists.2 ⟨last, hback⟩⟩

/-- The nodes of parts that may stand one after the other among blocks are blocks. -/
theorem Part.areBlocks {parts : List Part} {goesOn : Bool}
    (h : (parts.foldlM Part.inBlocks goesOn).isSome = true) (n : Nat) :
    AreBlocks (Part.treesAll n parts) := by
  induction parts generalizing goesOn n with
  | nil => exact fun _ hmem => absurd hmem List.not_mem_nil
  | cons part rest ih =>
    obtain ⟨_, next, hstart, hpart, hrest⟩ := @step_of_foldlM _ _ _ [] _ _ _ h
    cases hstart
    have hblocks := ih hrest (n + part.bytes.length)
    intro tree htree
    rw [Part.treesAll, List.mem_append] at htree
    apply htree.elim _ (hblocks tree)
    intro htree
    cases part with
    | blank => cases htree
    | text => cases hpart
    | run bracketed =>
      cases bracketed with
      | true => cases hpart
      | false =>
        cases List.mem_singleton.1 htree
        exact .inl rfl
    | call =>
      cases List.mem_singleton.1 htree
      exact .inr rfl

/-- A run of nodes, of which the first is no text unless one may be next. -/
theorem Part.areRun {pieces : List Part} {textFits : Bool}
    (h : (pieces.foldlM Part.inRun textFits).isSome = true) (n : Nat) :
    AreRun (Part.treesAll n pieces)
      ∧ (textFits = false → ∀ first ∈ (Part.treesAll n pieces).head?, first.isText = false) := by
  induction pieces generalizing textFits n with
  | nil => exact ⟨⟨fun _ hmem => absurd hmem List.not_mem_nil, .nil⟩, fun _ _ hmem => nomatch hmem⟩
  | cons piece rest ih =>
    obtain ⟨_, next, hstart, hpiece, hrest⟩ := @step_of_foldlM _ _ _ [] _ _ _ h
    cases hstart
    obtain ⟨hrun, hfirst⟩ := ih hrest (n + piece.bytes.length)
    cases piece with
    | text bytes =>
      cases textFits with
      | false => cases hpiece
      | true =>
        cases hpiece
        -- behind a text the next piece is none
        refine ⟨⟨?_, List.isChain_cons.2 ⟨fun second hsecond => .inr ?_, hrun.apart⟩⟩, nofun⟩
        · exact List.forall_mem_cons.2 ⟨.inl rfl, hrun.kinds⟩
        · exact hfirst rfl second hsecond
    | call =>
      refine ⟨⟨?_, List.isChain_cons.2 ⟨fun _ _ => .inl rfl, hrun.apart⟩⟩, fun _ first hmem => ?_⟩
      · exact List.forall_mem_cons.2 ⟨.inr rfl, hrun.kinds⟩
      · cases hmem
        rfl
    | _ => cases hpiece

/-- The first piece of a run is a text, and that of a paragraph starts with no blank. -/
theorem Part.head_of_startsRun {bracketed : Bool} {pieces : List Part}
    (h : Part.startsRun bracketed pieces = true) :
    (pieces = [] ∧ bracketed = true) ∨ ∃ b bytes rest, pieces = .text (b :: bytes) :: rest
      ∧ (bracketed = false → isBlank b = false) := by
  match pieces, h with
  | [], h => exact .inl ⟨rfl, h⟩
  | .text (b :: bytes) :: rest, h =>
    refine .inr ⟨b, bytes, rest, rfl, fun hnot => ?_⟩
    have hstart : (bracketed || !isBlank b) = true := h
    rw [hnot, Bool.false_or, Bool.not_eq_true'] at hstart
    exact hstart

/-! ## Without braces -/

/-- Where no braces are allowed, there are none inside, however deep. -/
theorem Part.Holds.fits_false {n m : Nat} {part found : Part} (h : Part.Holds n part m found)
    (hpart : part.Fits false) : found.Fits false := by
  induction h with
  | self => exact hpart
  | run front back _ ih =>
    obtain ⟨_, _, _, hpieces⟩ := hpart
    exact ih (Part.fitsAll_append.1 hpieces).2.1
  | inline front back _ ih =>
    obtain ⟨_, _, _, hargs⟩ := hpart
    exact ih (Arg.fitsAll_append.1 hargs).2.1.2
  | block front back before after _ _ =>
    obtain ⟨_, _, _, hargs⟩ := hpart
    have hbraces := (Arg.fitsAll_append.1 hargs).2.1.1
    cases hbraces

/-- An argument in braces is written in braces, and its nodes are those of the parts in them. -/
theorem Arg.eq_block_of_mem {arg : Arg} {n : Nat} {children : List Tree} {span : Span}
    (h : .block children span ∈ arg.arguments n) :
    ∃ parts, arg = .block parts ∧ children = Part.treesAll (n + 1) parts := by
  cases arg with
  | block parts =>
    cases List.mem_singleton.1 h
    exact ⟨parts, rfl, rfl⟩
  | inline part =>
    obtain ⟨_, _, heq⟩ := List.mem_map.1 h
    cases heq
  | ident => cases List.mem_singleton.1 h
  | string => cases List.mem_singleton.1 h
  | _ => cases h

/-- An argument in square brackets is written in them, and its node is that of the part in them. -/
theorem Arg.eq_inline_of_mem {arg : Arg} {n : Nat} {child : Tree} {span : Span}
    (h : .inline child span ∈ arg.arguments n) :
    ∃ part : Part, arg = .inline part ∧ child ∈ part.trees (n + 1) := by
  cases arg with
  | inline part =>
    obtain ⟨tree, htree, heq⟩ := List.mem_map.1 h
    cases heq
    exact ⟨part, rfl, htree⟩
  | block => cases List.mem_singleton.1 h
  | ident => cases List.mem_singleton.1 h
  | string => cases List.mem_singleton.1 h
  | _ => cases h

theorem Arg.kind_ne_block {arg : Arg} (h : arg.Fits false) {n : Nat} {a : Argument Tree}
    (ha : a ∈ arg.arguments n) : a.kind ≠ .block := by
  intro hkind
  cases a with
  | block children span =>
    obtain ⟨parts, rfl, _⟩ := Arg.eq_block_of_mem ha
    cases h.1
  | _ => cases hkind

/-- The nodes of a part that fits without braces have no block argument anywhere below them. -/
theorem Part.blockless {part : Part} (h : part.Fits false) {n : Nat} {tree : Tree}
    (htree : tree ∈ part.trees n) : tree.Blockless := by
  intro name args hhas arg harg
  obtain ⟨m, found, hholds, hfound⟩ := Part.holds_of_has hhas htree
  have hfits := hholds.fits_false h
  cases found with
  | call letters gap listed spelled =>
    cases hfound
    obtain ⟨_, _, _, hargs⟩ := hfits
    obtain ⟨front, inner, back, rfl, hinner⟩ := Arg.exists_of_mem_argumentsAll harg
    exact Arg.kind_ne_block (Arg.fitsAll_append.1 hargs).2.1 hinner
  | run bracketed => cases bracketed <;> cases hfound
  | _ => cases hfound

/-! ## The end of a text -/

/-- If the part is a run without a line end, no line feed follows it in the source. -/
def Part.EndsWell (source : Bytes) (n : Nat) (part : Part) : Prop :=
  part.isOpen = true → source[n + part.bytes.length]? ≠ some lineFeed

/-- A text of a run that ends well ends well itself: a command follows it, or the end of the run. -/
theorem lineEnd_of_run {source bytes : Bytes} {n : Nat} {bracketed : Bool} {ending : Ending}
    {front back : List Part}
    (hat : At source n (Part.run bracketed (front ++ .text bytes :: back) ending).bytes)
    (hfits : (Part.run bracketed (front ++ .text bytes :: back) ending).Fits false)
    (hends : Part.EndsWell source n (.run bracketed (front ++ .text bytes :: back) ending))
    (hreturn : bytes.getLast? = some carriageReturn) :
    source[n + (Part.bytesAll front).length + bytes.length]? ≠ some lineFeed := by
  obtain ⟨_, hsequence, hending, _⟩ := hfits
  have hbytes : (Part.run bracketed (front ++ .text bytes :: back) ending).bytes
      = Part.bytesAll front ++ (bytes ++ (Part.bytesAll back ++ ending.bytes)) := by
    rw [Part.bytes, Part.bytesAll_append, Part.bytesAll, List.append_assoc, List.append_assoc]
    rfl
  rw [hbytes] at hat
  have hafter := hat.right.right
  cases back with
  | cons next rest =>
    -- behind a text stands a command, which starts with a tilde
    obtain ⟨before, after, _, htext, hrest⟩ := step_of_foldlM hsequence
    obtain ⟨_, _, hsame, hnext, _⟩ := @step_of_foldlM _ _ _ [] _ _ _ hrest
    cases hsame
    cases before with
    | false => cases htext
    | true =>
      cases htext
      cases next with
      | call name gap listed args =>
        rw [Part.bytesAll, Part.bytes_call] at hafter
        rw [hafter.left.left.head]
        decide
      | _ => cases hnext
  | nil =>
    cases ending with
    | none =>
      have hopen := hends rfl
      rw [hbytes] at hopen
      simp only [Part.bytesAll, Ending.bytes, List.append_nil, List.length_append] at hopen
      rw [Nat.add_assoc]
      exact hopen
    | lineFeed =>
      have hnot := hending rfl
      rw [runEndsInReturn_append, Part.runEndsInReturn, Part.runEndsInReturn,
        endsInReturn_of_getLast? hreturn] at hnot
      cases hnot
    | returnLineFeed =>
      rw [hafter.head]
      decide

/-- Among blocks, what ends without a line end is the last part. -/
theorem Part.eq_nil_of_isOpen {part : Part} {front back : List Part} {goesOn : Bool}
    (h : ((front ++ part :: back).foldlM Part.inBlocks goesOn).isSome = true)
    (hopen : part.isOpen = true) : back = [] := by
  obtain ⟨before, after, _, hpart, hback⟩ := step_of_foldlM h
  obtain ⟨last, hlast⟩ := Option.isSome_iff_exists.1 hback
  have hstops : after = false := by
    match part, hpart, hopen with
    | .run false pieces .none, hpart, _ =>
      cases before with
      | false => cases hpart
      | true =>
        cases hpart
        rfl
  rw [hstops] at hlast
  exact (Part.eq_nil_of_inBlocks hlast).1

theorem Part.ne_text_of_inBlocks {part : Part} {front back : List Part} {goesOn : Bool}
    (h : ((front ++ part :: back).foldlM Part.inBlocks goesOn).isSome = true) (bytes : Bytes) :
    part ≠ .text bytes := by
  rintro rfl
  obtain ⟨before, after, _, hpart, _⟩ := step_of_foldlM h
  cases hpart

/-- A part in square brackets ends in front of their closer, which is no line feed. -/
theorem Part.endsWell_inline {source : Bytes} {n : Nat} {part : Part}
    (hat : At source n (Arg.inline part).bytes) : Part.EndsWell source (n + 1) part := by
  intro _
  rw [Arg.bytes] at hat
  rw [hat.tail.right.head]
  decide

/-- A part in braces ends in front of their closer, or with a line end. -/
theorem Part.endsWell_block {source : Bytes} {n : Nat} {before after : List Part} {part : Part}
    (hat : At source n (Arg.block (before ++ part :: after)).bytes)
    (hsequence : ((before ++ part :: after).foldlM Part.inBlocks true).isSome = true) :
    Part.EndsWell source (n + 1 + (Part.bytesAll before).length) part := by
  intro hopen
  cases Part.eq_nil_of_isOpen hsequence hopen
  rw [Arg.bytes, Part.bytesAll_append, Part.bytesAll_singleton, List.append_assoc] at hat
  rw [hat.tail.right.right.head]
  decide

/-- A text inside a part that ends well ends well, by induction on the way to it. -/
theorem Part.Holds.lineEnd {source bytes : Bytes} {n m : Nat} {part found : Part} {blocks : Bool}
    (h : Part.Holds n part m found) (hfound : found = .text bytes)
    (hat : At source n part.bytes) (hfits : part.Fits blocks)
    (hends : Part.EndsWell source n part) (hpart : ∀ other, part ≠ .text other)
    (hreturn : bytes.getLast? = some carriageReturn) :
    source[m + bytes.length]? ≠ some lineFeed := by
  induction h generalizing blocks with
  | self => exact absurd hfound (hpart bytes)
  | @run n _ bracketed ending part _ front back hinner ih =>
    have hrun := hfits
    obtain ⟨_, hsequence, _, hpieces⟩ := hfits
    obtain ⟨before, after, _, hstep, _⟩ := step_of_foldlM hsequence
    -- the text is a piece of the run, or it is inside of a command that is one
    cases part with
    | text other =>
      cases hinner
      cases hfound
      exact lineEnd_of_run hat hrun hends hreturn
    | call =>
      refine ih hfound ?_ (Part.fitsAll_append.1 hpieces).2.1 nofun nofun
      rw [Part.bytes] at hat
      exact at_part hat.left
    | _ => cases hstep
  | inline front back _ ih =>
    obtain ⟨_, _, _, hargs⟩ := hfits
    obtain ⟨hinline, hinner⟩ := (Arg.fitsAll_append.1 hargs).2.1
    have harg := at_arg hat
    refine ih hfound ?_ hinner (Part.endsWell_inline harg) ?_
    · rw [Arg.bytes] at harg
      exact harg.tail.left
    · rintro other rfl
      cases hinline
  | block front back before after _ ih =>
    obtain ⟨_, _, _, hargs⟩ := hfits
    obtain ⟨_, hsequence, hparts⟩ := (Arg.fitsAll_append.1 hargs).2.1
    have harg := at_arg hat
    refine ih hfound ?_ (Part.fitsAll_append.1 hparts).2.1 (Part.endsWell_block harg hsequence)
      (Part.ne_text_of_inBlocks hsequence)
    rw [Arg.bytes] at harg
    exact at_part harg.tail.left

/-! ## The layers of a document -/

section Document

variable {parts : List Part} {opened : List Bracket}

theorem Holds.lineEnd {bytes : Bytes} {m : Nat} (h : Holds parts m (.text bytes))
    (hparts : IsDocument parts opened) (hreturn : bytes.getLast? = some carriageReturn) :
    (Part.bytesAll parts)[m + bytes.length]? ≠ some lineFeed := by
  obtain ⟨front, part, back, rfl, hholds⟩ := h
  have hat := at_part (n := 0) (At.self (Part.bytesAll (front ++ part :: back)))
  rw [Nat.zero_add] at hat
  refine hholds.lineEnd rfl hat (Part.fitsAll_append.1 hparts.fits).2.1 ?_
    (Part.ne_text_of_inBlocks hparts.sequence) hreturn
  intro hopen
  cases Part.eq_nil_of_isOpen hparts.sequence hopen
  rw [Part.bytesAll_append, Part.bytesAll_singleton, ← List.length_append,
    List.getElem?_eq_none (Nat.le_refl _)]
  nofun

/-- A text of a parsed source is a piece of one line of it, and not empty. -/
theorem isLinePiece_of_has (hparts : IsDocument parts opened) {span : Span}
    (h : (documentTree parts).Has (.text span)) : span.IsLinePiece (Part.bytesAll parts) := by
  obtain ⟨m, bytes, hholds, rfl⟩ := holds_text h
  obtain ⟨_, hne, htilde, hline⟩ := hholds.fits hparts
  have hat : At (Part.bytesAll parts) m bytes := hholds.located
  constructor
  · exact Nat.lt_add_of_pos_right (List.length_pos_iff.2 hne)
  · exact hat.le
  · rw [hat.slice]
    exact htilde
  · rw [hat.slice]
    exact hline
  · rw [hat.slice]
    exact hholds.lineEnd hparts

/-- A paragraph of a parsed source is spelled by a run, and its nodes are those of the pieces. -/
theorem holds_paragraph {children : List Tree}
    (h : (documentTree parts).Has (.paragraph children)) :
    ∃ m pieces ending, Holds parts m (.run false pieces ending)
      ∧ children = Part.treesAll m pieces := by
  rcases holds_layer h with ⟨_, hroot⟩ | ⟨m, found, hholds, hfound⟩
  · cases hroot
  · cases found with
    | run bracketed pieces ending =>
      cases bracketed with
      | true => cases hfound
      | false =>
        cases hfound
        exact ⟨m, pieces, ending, hholds, rfl⟩
    | _ => cases hfound

/-- An argument of a parsed command is spelled, and fits where it stands. -/
theorem exists_arg_of_has (hparts : IsDocument parts opened) {name : Span}
    {args : List (Argument Tree)} (h : (documentTree parts).Has (.command name args))
    {a : Argument Tree} (ha : a ∈ args) :
    ∃ n arg blocks, a ∈ Arg.arguments n arg ∧ arg.Fits blocks := by
  obtain ⟨m, letters, gap, listed, spelled, hholds, _, rfl⟩ := holds_command h
  obtain ⟨_, _, _, blocks, hargs⟩ := hholds.fits_call hparts
  obtain ⟨front, arg, back, rfl, harg⟩ := Arg.exists_of_mem_argumentsAll ha
  exact ⟨_, arg, blocks, harg, (Arg.fitsAll_append.1 hargs).2.1⟩

/-- What stands in the braces of a parsed command is a sequence of blocks. -/
theorem areBlocks_of_has (hparts : IsDocument parts opened) {name : Span}
    {args : List (Argument Tree)} (h : (documentTree parts).Has (.command name args))
    {children : List Tree} {span : Span} (ha : .block children span ∈ args) :
    AreBlocks children := by
  obtain ⟨n, arg, blocks, harg, hfits⟩ := exists_arg_of_has hparts h ha
  obtain ⟨inner, rfl, rfl⟩ := Arg.eq_block_of_mem harg
  exact Part.areBlocks hfits.2.1 (n + 1)

theorem inline_of_has (hparts : IsDocument parts opened) {name : Span}
    {args : List (Argument Tree)} (h : (documentTree parts).Has (.command name args))
    {child : Tree} {span : Span} (ha : .inline child span ∈ args) :
    ∃ n, ∃ part : Part, child ∈ part.trees n ∧ part.isInline = true ∧ part.Fits false := by
  obtain ⟨n, arg, blocks, harg, hfits⟩ := exists_arg_of_has hparts h ha
  obtain ⟨part, rfl, hchild⟩ := Arg.eq_inline_of_mem harg
  exact ⟨n + 1, part, hchild, hfits⟩

/-- The tree of a document is well typed: each layer holds what it should hold. -/
theorem wellTyped_documentTree (hparts : IsDocument parts opened) :
    WellTyped (Part.bytesAll parts) (documentTree parts) where
  root := ⟨_, rfl, Part.areBlocks hparts.sequence 0⟩
  block _ _ _ _ h ha := areBlocks_of_has hparts h ha
  paragraph children h := by
    obtain ⟨m, pieces, ending, hholds, rfl⟩ := holds_paragraph h
    obtain ⟨_, hstarts, hsequence, _⟩ := hholds.fits hparts
    refine ⟨(Part.areRun hsequence m).1, ?_⟩
    rcases Part.head_of_startsRun hstarts with ⟨_, hfalse⟩ | ⟨b, bytes, rest, rfl, hb⟩
    · cases hfalse
    · have hat := hholds.located
      rw [Part.bytes, Part.bytesAll, Part.bytes] at hat
      exact ⟨_, _, b, rfl, hat.left.left.head, hb rfl⟩
  inline _ _ child _ h ha := by
    obtain ⟨n, part, hchild, hinline, hfits⟩ := inline_of_has hparts h ha
    cases part with
    | call =>
      cases List.mem_singleton.1 hchild
      exact .inl rfl
    | run bracketed pieces ending =>
      cases bracketed with
      | false => cases hinline
      | true =>
        cases List.mem_singleton.1 hchild
        obtain ⟨hstarts, hsequence, _⟩ := hfits
        refine .inr ⟨_, rfl, (Part.areRun hsequence n).1, fun first hfirst => ?_⟩
        rcases Part.head_of_startsRun hstarts with ⟨rfl, _⟩ | ⟨b, bytes, rest, rfl, _⟩
        · cases hfirst
        · cases hfirst
          rfl
    | _ => cases hinline
  paragraphBlockless children h := by
    obtain ⟨m, pieces, ending, hholds, rfl⟩ := holds_paragraph h
    obtain ⟨_, hfits⟩ := hholds.fits hparts
    -- a run has the same to fit whether braces are allowed around it or not
    have hfalse : (Part.run false pieces ending).Fits false := hfits
    exact Part.blockless hfalse (List.mem_singleton_self _)
  inlineBlockless _ _ child _ h ha := by
    obtain ⟨n, part, hchild, _, hfits⟩ := inline_of_has hparts h ha
    exact Part.blockless hfits hchild
  text _ h := isLinePiece_of_has hparts h

end Document

end TildeMarkup.Spelling
