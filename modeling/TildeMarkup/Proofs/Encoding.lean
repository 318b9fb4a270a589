import TildeMarkup.Proofs.Failures
import TildeMarkup.Proofs.Html.Pieces
import TildeMarkup.Proofs.LineEnds.Rendering
import TildeMarkup.Proofs.Spelling.Typing
import TildeMarkup.Proofs.Utf8.Boundary

/-!
# Sources in UTF-8

The reader looks at bytes, and never at characters. All that it cuts at is below 0x80 or next to a byte
that is: tildes, brackets, quotes, letters, and the line end or the closer where a text stops. So in a
source in UTF-8 no span starts or ends inside of a character, and the output is UTF-8 again
(`parse_onBoundaries`).

Two parts stand side by side without such a byte between them in one case only: a text may be the first
of its run, or the last. Its ends are then those of the run (`Part.boundary_run`), and the ends of a run
are found from outside, from scope to scope (`Part.Holds.bounded`).
-/

namespace TildeMarkup

open Utf8

/-- Both ends of the span are boundaries of characters. -/
structure Span.OnBoundaries (source : Bytes) (span : Span) : Prop where
  start : IsBoundary source span.start
  stop : IsBoundary source span.stop

/-- Both ends of what stands between the quotes of a string are boundaries of characters. -/
def Span.InnerOnBoundaries (source : Bytes) (span : Span) : Prop :=
  ∃ inner : Span, span.inner = ((inner.start : Int), (inner.stop : Int)) ∧ inner.start ≤ inner.stop
    ∧ inner.OnBoundaries source

namespace Node

variable {α β : Type}

/-- The spans of a layer: that of a text, or those of a name and of its arguments. -/
def spans : Node α → List Span
  | text span => [span]
  | command name args => name :: args.map Argument.span
  | _ => []

/-- The spans of the arguments in quotes. -/
def quoted : Node α → List Span
  | command _ args => args.filterMap fun arg =>
    match arg with
    | .string span => some span
    | _ => none
  | _ => []

@[simp] theorem spans_map (f : α → β) (layer : Node α) : (layer.map f).spans = layer.spans := by
  cases layer with
  | command name args => simp [map, spans, Function.comp_def]
  | _ => rfl

@[simp] theorem quoted_map (f : α → β) (layer : Node α) : (layer.map f).quoted = layer.quoted := by
  cases layer with
  | command name args =>
    rw [map, quoted, quoted, List.filterMap_map]
    congr 1
    funext arg
    cases arg <;> rfl
  | _ => rfl

theorem mem_quoted {name span : Span} {args : List (Argument α)} :
    span ∈ (command name args).quoted ↔ .string span ∈ args := by
  rw [quoted, List.mem_filterMap]
  constructor
  · rintro ⟨arg, harg, hspan⟩
    cases arg with
    | string found =>
      cases hspan
      exact harg
    | _ => cases hspan
  · intro harg
    exact ⟨.string span, harg, rfl⟩

end Node

/-- Blanks are ASCII, and so is all other markup. -/
theorem lt_of_isBlank {b : UInt8} (h : isBlank b = true) : b < 0x80 := by
  simp only [isBlank, lineFeed, carriageReturn, Bool.or_eq_true, beq_iff_eq] at h
  rcases h with (((rfl | rfl) | rfl) | rfl) | rfl <;> decide

namespace Spelling

section Boundaries

variable {source : Bytes} {n m : Nat} {part found : Part} {blocks : Bool}

/-- What is no text and goes up to no closer ends in a byte below 0x80. -/
theorem Part.exists_last (hfits : part.Fits blocks) (htext : ∀ bytes, part ≠ .text bytes)
    (hopen : part.isOpen = false) : ∃ init b, part.bytes = init ++ [b] ∧ b < 0x80 := by
  cases part with
  | blank b => exact ⟨[], b, rfl, lt_of_isBlank hfits⟩
  | text bytes => exact absurd rfl (htext bytes)
  | run bracketed pieces ending =>
    cases ending with
    | none => cases hopen
    | lineFeed => exact ⟨Part.bytesAll pieces, lineFeed, rfl, by decide⟩
    | returnLineFeed =>
      exact ⟨Part.bytesAll pieces ++ [carriageReturn], lineFeed, by simp [Part.bytes, Ending.bytes],
        by decide⟩
  | call name gap listed args =>
    obtain ⟨_, _, hcall, _⟩ := hfits
    rw [Part.bytes_call_eq]
    cases listed with
    | true =>
      refine ⟨callHead name gap true ++ Arg.bytesAll args, Bracket.round.closer, ?_, by decide⟩
      rw [List.append_assoc]
      rfl
    | false =>
      match args, hcall with
      | [.inline inner], _ =>
        refine ⟨callHead name gap false ++ (Bracket.square.opener :: inner.bytes),
          Bracket.square.closer, ?_, by decide⟩
        simp [callTail, Arg.bytes]
      | [.block inner], _ =>
        refine ⟨callHead name gap false ++ (Bracket.curly.opener :: Part.bytesAll inner),
          Bracket.curly.closer, ?_, by decide⟩
        simp [callTail, Arg.bytes]

/-- Between two pieces of a run there is a boundary. -/
theorem Part.boundary_run {bracketed : Bool} {front back : List Part} {ending : Ending}
    (hvalid : IsValid source) (hat : At source n (Part.run bracketed (front ++ back) ending).bytes)
    (hfits : (Part.run bracketed (front ++ back) ending).Fits blocks) (hstart : IsBoundary source n)
    (hstop : IsBoundary source (n + (Part.run bracketed (front ++ back) ending).bytes.length)) :
    IsBoundary source (n + (Part.bytesAll front).length) := by
  obtain ⟨_, hsequence, _, hpieces⟩ := hfits
  rw [Part.bytes, Part.bytesAll_append] at hat hstop
  rw [List.append_assoc] at hat
  cases back with
  | nil =>
    cases ending with
    | none => simpa [Part.bytesAll, Ending.bytes] using hstop
    | lineFeed => exact .before hvalid hat.right (by decide)
    | returnLineFeed => exact .before hvalid hat.right (by decide)
  -- A command starts with a tilde, which is below 0x80. A text does not, so one looks at what is in front
  -- of it.
  | cons next rest =>
    obtain ⟨before, after, hfront, hnext, _⟩ := step_of_foldlM hsequence
    cases next with
    | call name gap listed args => exact .before hvalid hat.right (by decide)
    | text bytes =>
      -- in front of a text stands a command, or nothing of the run
      rcases List.eq_nil_or_concat front with rfl | ⟨init, last, rfl⟩
      · exact hstart
      · rw [List.concat_eq_append] at hat hpieces hsequence ⊢
        have hlast := (Part.fitsAll_append.1 (Part.fitsAll_append.1 hpieces).1).2.1
        rw [List.append_assoc, List.singleton_append] at hsequence
        obtain ⟨before, after, _, hstep, hrest⟩ := step_of_foldlM hsequence
        obtain ⟨_, _, hsame, htext, _⟩ := @step_of_foldlM _ _ _ [] _ _ _ hrest
        cases hsame
        have hcall : (∀ bytes, last ≠ .text bytes) ∧ last.isOpen = false := by
          cases last with
          | call => exact ⟨nofun, rfl⟩
          | text => cases before <;> cases hstep; cases htext
          | _ => cases hstep
        obtain ⟨front, b, hb, hlow⟩ := last.exists_last hlast hcall.1 hcall.2
        rw [Part.bytesAll_append, Part.bytesAll_singleton, hb] at hat ⊢
        rw [← List.append_assoc (Part.bytesAll init)] at hat ⊢
        exact .behind hvalid hat.left hlow
    | _ => cases hnext

/-- Between two blocks there is a boundary. -/
theorem Part.boundary_blocks {front back : List Part} (hvalid : IsValid source)
    (hat : At source n (Part.bytesAll (front ++ back)))
    (hsequence : ((front ++ back).foldlM Part.inBlocks true).isSome = true)
    (hfits : Part.FitsAll blocks (front ++ back)) (hstart : IsBoundary source n)
    (hstop : IsBoundary source (n + (Part.bytesAll (front ++ back)).length)) :
    IsBoundary source (n + (Part.bytesAll front).length) := by
  rcases List.eq_nil_or_concat front with rfl | ⟨init, last, rfl⟩
  · exact hstart
  · rw [List.concat_eq_append, List.append_assoc, List.singleton_append] at hat hsequence hfits hstop
    rw [List.concat_eq_append]
    -- A part that goes up to the closer is the last one, so it ends where the whole does.
    cases hopen : last.isOpen with
    | true =>
      rw [Part.eq_nil_of_isOpen hsequence hopen] at hstop
      exact hstop
    | false =>
      obtain ⟨front, b, hb, hlow⟩ := last.exists_last (Part.fitsAll_append.1 hfits).2.1
        (Part.ne_text_of_inBlocks hsequence) hopen
      rw [Part.bytesAll_append, Part.bytesAll, hb, ← List.append_assoc, ← List.append_assoc] at hat
      rw [Part.bytesAll_append, Part.bytesAll_singleton, hb, ← List.append_assoc]
      exact .behind hvalid hat.left hlow

/-- Both ends of the part are boundaries. -/
def Part.Bounded (source : Bytes) (n : Nat) (part : Part) : Prop :=
  IsBoundary source n ∧ IsBoundary source (n + part.bytes.length)

theorem Part.length_bytesAll_snoc (n : Nat) (front : List Part) (part : Part) :
    n + (Part.bytesAll (front ++ [part])).length
      = n + (Part.bytesAll front).length + part.bytes.length := by
  rw [Part.bytesAll_append, Part.bytesAll_singleton, List.length_append, Nat.add_assoc]

/-- A piece of a run has boundaries at its ends, since they are between pieces. -/
theorem Part.bounded_piece {bracketed : Bool} {front back : List Part} {ending : Ending}
    (hvalid : IsValid source)
    (hat : At source n (Part.run bracketed (front ++ part :: back) ending).bytes)
    (hfits : (Part.run bracketed (front ++ part :: back) ending).Fits blocks)
    (hrun : (Part.run bracketed (front ++ part :: back) ending).Bounded source n) :
    part.Bounded source (n + (Part.bytesAll front).length) := by
  have hsplit : front ++ part :: back = (front ++ [part]) ++ back := by simp
  constructor
  · exact Part.boundary_run hvalid hat hfits hrun.1 hrun.2
  · rw [hsplit] at hat hfits hrun
    rw [← Part.length_bytesAll_snoc]
    exact Part.boundary_run hvalid hat hfits hrun.1 hrun.2

/-- So has a block among others. -/
theorem Part.bounded_block {front back : List Part} (hvalid : IsValid source)
    (hat : At source n (Part.bytesAll (front ++ part :: back)))
    (hsequence : ((front ++ part :: back).foldlM Part.inBlocks true).isSome = true)
    (hfits : Part.FitsAll blocks (front ++ part :: back)) (hstart : IsBoundary source n)
    (hstop : IsBoundary source (n + (Part.bytesAll (front ++ part :: back)).length)) :
    part.Bounded source (n + (Part.bytesAll front).length) := by
  have hsplit : front ++ part :: back = (front ++ [part]) ++ back := by simp
  constructor
  · exact Part.boundary_blocks hvalid hat hsequence hfits hstart hstop
  · rw [hsplit] at hat hsequence hfits hstop
    rw [← Part.length_bytesAll_snoc]
    exact Part.boundary_blocks hvalid hat hsequence hfits hstart hstop

/-- What stands between two bytes below 0x80 has boundaries at its ends, and so has the whole. -/
theorem boundary_between {inside : Bytes} {b c : UInt8} (hvalid : IsValid source)
    (hat : At source n (b :: (inside ++ [c]))) (hb : b < 0x80) (hc : c < 0x80) :
    (IsBoundary source n ∧ IsBoundary source (n + (b :: (inside ++ [c])).length))
      ∧ IsBoundary source (n + 1) ∧ IsBoundary source (n + 1 + inside.length) := by
  refine ⟨⟨.before hvalid hat hb, ?_⟩, ?_, .before hvalid hat.tail.right hc⟩
  · have hwhole : At source n ((b :: inside) ++ [c]) := hat
    exact .behind hvalid hwhole hc
  · have hfirst : At source n ([] ++ [b]) := hat.left
    exact .behind hvalid hfirst hb

/-- A part has boundaries at its ends if the part that it is in has. -/
theorem Part.Holds.bounded (h : Part.Holds n part m found) (hvalid : IsValid source)
    (hat : At source n part.bytes) (hfits : part.Fits blocks) (hpart : part.Bounded source n) :
    found.Bounded source m := by
  -- By induction on the way down to the part, one scope after the other.
  induction h generalizing blocks with
  | self => exact hpart
  | run front back _ ih =>
    have hpieces := hfits.2.2.2
    apply ih _ (Part.fitsAll_append.1 hpieces).2.1 (Part.bounded_piece hvalid hat hfits hpart)
    rw [Part.bytes] at hat
    exact at_part hat.left
  | inline front back _ ih =>
    obtain ⟨_, _, _, hargs⟩ := hfits
    have harg := at_arg hat
    rw [Arg.bytes] at harg
    apply ih harg.tail.left (Arg.fitsAll_append.1 hargs).2.1.2
    exact (boundary_between hvalid harg (by decide) (by decide)).2
  | block front back before after _ ih =>
    obtain ⟨_, _, _, hargs⟩ := hfits
    obtain ⟨_, hsequence, hparts⟩ := (Arg.fitsAll_append.1 hargs).2.1
    have harg := at_arg hat
    rw [Arg.bytes] at harg
    obtain ⟨hfirst, hlast⟩ := (boundary_between hvalid harg (by decide) (by decide)).2
    apply ih (at_part harg.tail.left) (Part.fitsAll_append.1 hparts).2.1
    exact Part.bounded_block hvalid harg.tail.left hsequence hparts hfirst hlast

/-- Every part of a document has boundaries at its ends. -/
theorem Holds.bounded {parts : List Part} {opened : List Bracket} (h : Holds parts m found)
    (hparts : IsDocument parts opened) (hvalid : IsValid (Part.bytesAll parts)) :
    found.Bounded (Part.bytesAll parts) m := by
  obtain ⟨front, part, back, rfl, hholds⟩ := h
  have hat := At.self (Part.bytesAll (front ++ part :: back))
  have hstop : IsBoundary (Part.bytesAll (front ++ part :: back))
      (0 + (Part.bytesAll (front ++ part :: back)).length) := by
    rw [Nat.zero_add]
    exact .stop hvalid
  have hpart := Part.bounded_block hvalid hat hparts.sequence hparts.fits (.start hvalid) hstop
  have hplace := at_part hat
  rw [Nat.zero_add] at hpart hplace
  exact hholds.bounded hvalid hplace (Part.fitsAll_append.1 hparts.fits).2.1 hpart

/-! ## Spans -/

/-- What is read of an argument has boundaries at its ends, and a string has them inside of its quotes
too. -/
theorem Arg.onBoundaries {arg : Arg} {a : Argument Tree} (hvalid : IsValid source)
    (hat : At source n arg.bytes) (hfits : arg.Fits blocks) (ha : a ∈ arg.arguments n) :
    a.span.OnBoundaries source ∧ ∀ span, a = .string span → span.InnerOnBoundaries source := by
  cases arg with
  | blank b => cases ha
  | comma => cases ha
  | ident letters =>
    cases List.mem_singleton.1 ha
    refine ⟨?_, nofun⟩
    obtain ⟨hne, hletters⟩ := hfits
    have hlow : ∀ b ∈ letters, b < 0x80 := fun b hb => lt_of_isLetter (List.all_eq_true.1 hletters b hb)
    obtain ⟨b, rest, rfl⟩ := List.exists_cons_of_ne_nil hne
    have hstart := IsBoundary.before hvalid hat (hlow b (List.mem_cons_self ..))
    exact ⟨hstart, .low hvalid hstart hat hlow⟩
  -- Quotes are below 0x80, so there are boundaries outside of them and inside.
  | string raw =>
    cases List.mem_singleton.1 ha
    obtain ⟨⟨hstart, hstop⟩, hfirst, hlast⟩ := boundary_between hvalid hat (by decide) (by decide)
    refine ⟨⟨hstart, ?_⟩, fun span hspan => ?_⟩
    · have hlength := Arg.length_bytes_string n raw
      rw [Arg.bytes] at hlength
      rw [hlength] at hstop
      exact hstop
    · cases hspan
      refine ⟨⟨n + 1, n + 1 + raw.length⟩, ?_, Nat.le_add_right .., hfirst, hlast⟩
      simp only [Span.inner, Prod.mk.injEq]
      omega
  | inline inner =>
    obtain ⟨tree, _, rfl⟩ := List.mem_map.1 ha
    refine ⟨?_, nofun⟩
    have hends := (boundary_between hvalid hat (by decide) (by decide)).1
    have hlength := Arg.length_bytes_inline n inner
    rw [Arg.bytes] at hlength
    rw [hlength] at hends
    exact ⟨hends.1, hends.2⟩
  | block inner =>
    cases List.mem_singleton.1 ha
    refine ⟨?_, nofun⟩
    have hends := (boundary_between hvalid hat (by decide) (by decide)).1
    have hlength := Arg.length_bytes_block n inner
    rw [Arg.bytes] at hlength
    rw [hlength] at hends
    exact ⟨hends.1, hends.2⟩

end Boundaries

section Document

variable {parts : List Part} {opened : List Bracket}

/-- A name is of letters, which are all below 0x80. -/
theorem Holds.onBoundaries_name {m : Nat} {name gap : Bytes} {listed : Bool} {args : List Arg}
    (hparts : IsDocument parts opened) (hvalid : IsValid (Part.bytesAll parts))
    (h : Holds parts m (.call name gap listed args)) :
    Span.OnBoundaries (Part.bytesAll parts) ⟨m + 1, m + 1 + name.length⟩ := by
  obtain ⟨hname, _⟩ := h.fits_call hparts
  have hat := h.located
  rw [Part.bytes] at hat
  have htilde : At (Part.bytesAll parts) m ([] ++ [tilde]) := hat.left
  have hstart := IsBoundary.behind hvalid htilde (by decide)
  refine ⟨hstart, .low hvalid hstart hat.tail.left fun b hb => ?_⟩
  exact lt_of_isLetter (List.all_eq_true.1 hname b hb)

theorem Holds.onBoundaries_arg {m : Nat} {name gap : Bytes} {listed : Bool} {args : List Arg}
    (hparts : IsDocument parts opened) (hvalid : IsValid (Part.bytesAll parts))
    (h : Holds parts m (.call name gap listed args)) {a : Argument Tree}
    (ha : a ∈ Arg.argumentsAll (argsStart m name gap listed) args) :
    a.span.OnBoundaries (Part.bytesAll parts)
      ∧ ∀ span, a = .string span → span.InnerOnBoundaries (Part.bytesAll parts) := by
  obtain ⟨_, _, _, blocks, hargs⟩ := h.fits_call hparts
  obtain ⟨front, arg, back, rfl, hmem⟩ := Arg.exists_of_mem_argumentsAll ha
  exact Arg.onBoundaries hvalid (at_arg h.located) (Arg.fitsAll_append.1 hargs).2.1 hmem

/-- The spans of a layer of a document have boundaries at their ends. -/
theorem onBoundaries_of_has (hparts : IsDocument parts opened)
    (hvalid : IsValid (Part.bytesAll parts)) {layer : Node Tree} (h : (documentTree parts).Has layer) :
    (∀ span ∈ layer.spans, span.OnBoundaries (Part.bytesAll parts))
      ∧ ∀ span ∈ layer.quoted, span.InnerOnBoundaries (Part.bytesAll parts) := by
  cases layer with
  | group children => exact ⟨nofun, nofun⟩
  | paragraph children => exact ⟨nofun, nofun⟩
  | text span =>
    refine ⟨fun found hfound => ?_, nofun⟩
    cases List.mem_singleton.1 hfound
    obtain ⟨m, bytes, hholds, rfl⟩ := holds_text h
    have hbounded := hholds.bounded hparts hvalid
    exact ⟨hbounded.1, hbounded.2⟩
  | command name args =>
    obtain ⟨m, letters, gap, listed, spelled, hholds, rfl, rfl⟩ := holds_command h
    constructor
    · intro span hspan
      rcases List.mem_cons.1 hspan with rfl | hspan
      · exact hholds.onBoundaries_name hparts hvalid
      · obtain ⟨a, ha, rfl⟩ := List.mem_map.1 hspan
        exact (hholds.onBoundaries_arg hparts hvalid ha).1
    · intro span hspan
      exact (hholds.onBoundaries_arg hparts hvalid (Node.mem_quoted.1 hspan)).2 span rfl

end Document

end Spelling

/-! ## The output -/

theorem Span.contents_of_inner {span inner : Span} (source : Bytes)
    (h : span.inner = ((inner.start : Int), (inner.stop : Int))) :
    span.contents source = inner.slice source := by
  simp only [Span.inner, Prod.mk.injEq] at h
  have hstart : span.start + 1 = inner.start := by omega
  have hstop : span.stop - 1 = inner.stop := by omega
  rw [contents_eq_slice source (by omega), hstart, hstop]

namespace Html

/-- An element around valid bytes is valid, for its tags are. -/
theorem isValid_element (tag : String) {content : Bytes} (h : IsValid content) :
    IsValid (element tag content) :=
  (IsValid.encode _).append (h.append (.encode _))

theorem isValid_renderCall {source : Bytes} {builtin : Builtin} {args : List (Argument Bytes)}
    (hchildren : ∀ arg ∈ args, ∀ content ∈ arg.children, IsValid content)
    (hquoted : ∀ span, .string span ∈ args → IsValid (span.contents source)) :
    IsValid (renderCall source builtin args) := by
  unfold renderCall
  split
  · next arg _ =>
    exact isValid_element _ (.flatten (hchildren arg (List.mem_singleton_self arg)))
  · exact isValid_element _ (.encode _)
  · next content span href _ =>
    have htext : IsValid content :=
      hchildren (.inline content span) (List.mem_cons_self ..) content (List.mem_singleton_self _)
    have hhref := hquoted href (List.mem_cons_of_mem _ (List.mem_singleton_self _))
    exact (IsValid.encode _).append (hhref.append ((IsValid.encode _).append
      (htext.append (.encode _))))
  · apply isValid_element
    apply (IsValid.encode _).append
    rw [List.flatMap_def]
    apply IsValid.flatten
    intro content hcontent
    obtain ⟨line, _, rfl⟩ := List.mem_map.1 hcontent
    exact isValid_element _ (.encode _)
  · exact .nil

theorem isValid_renderNode {source : Bytes} {layer : Node Bytes}
    (hchildren : ∀ content ∈ layer.children, IsValid content)
    (hspans : ∀ span ∈ layer.spans, IsValid (span.slice source))
    (hquoted : ∀ span ∈ layer.quoted, IsValid (span.contents source)) :
    IsValid (renderNode source layer) := by
  cases layer with
  | group children => exact .flatten hchildren
  | paragraph children => exact isValid_element _ (.flatten hchildren)
  | text span => exact hspans span (List.mem_singleton_self span)
  | command name args =>
    rw [renderNode]
    cases Builtin.find? (commandName source name) with
    | none => exact .nil
    | some builtin =>
      apply isValid_renderCall
      · intro arg harg content hcontent
        exact hchildren content (List.mem_flatMap_of_mem harg hcontent)
      · intro span hspan
        exact hquoted span (Node.mem_quoted.2 hspan)

/-- What is rendered is UTF-8 if all that is taken out of the source is. -/
theorem isValid_pieces {source : Bytes} {root : Tree}
    (hspans : ∀ layer, root.Has layer → ∀ span ∈ layer.spans, IsValid (span.slice source))
    (hquoted : ∀ layer, root.Has layer → ∀ span ∈ layer.quoted, IsValid (span.contents source)) :
    ∀ tree : Tree, (∀ layer, tree.Has layer → root.Has layer) →
      IsValid (Piece.bytesAll (pieces source tree)) := by
  refine Tree.induction fun layer ih hbelow => ?_
  have hhas : root.Has layer := hbelow layer (.here layer)
  rw [pieces_node, bytesAll_node, Node.map_map]
  apply isValid_renderNode
  · intro content hcontent
    rw [Node.children_map] at hcontent
    obtain ⟨child, hchild, rfl⟩ := List.mem_map.1 hcontent
    exact ih child hchild fun found hfound => hbelow found (.child hchild hfound)
  · rw [Node.spans_map]
    exact hspans layer hhas
  · rw [Node.quoted_map]
    exact hquoted layer hhas

end Html

open Spelling

/-- In a source in UTF-8 every span of the arena starts and stops between two characters, and so does
the inside of every string. What is rendered is UTF-8. -/
theorem parse_onBoundaries {source : Bytes} {arena : Arena} (hvalid : IsValid source)
    (h : parse source = .ok arena) :
    (∀ id layer, arena.get? id = some layer →
      (∀ span ∈ layer.spans, span.OnBoundaries source)
        ∧ ∀ span ∈ layer.quoted, span.InnerOnBoundaries source)
      ∧ ∀ html, compile source = .ok html → IsValid html := by
  constructor
  · intro id layer hid
    obtain ⟨parts, opened, hparts, rfl, rfl⟩ := spelled_of_parse h
    -- the tree has a layer of the same spans
    obtain ⟨other, hhas, hshape⟩ := Tree.mem_preorder.1 (Arena.exists_get?_iff.1 ⟨id, layer, hid, rfl⟩)
    have hspans : layer.spans = other.spans := by
      rw [← Node.spans_map (fun _ => ()) layer, ← Node.spans_map (fun _ => ()) other]
      exact congrArg Node.spans hshape.symm
    have hquoted : layer.quoted = other.quoted := by
      rw [← Node.quoted_map (fun _ => ()) layer, ← Node.quoted_map (fun _ => ()) other]
      exact congrArg Node.quoted hshape.symm
    rw [hspans, hquoted]
    exact onBoundaries_of_has hparts hvalid hhas
  · intro html hhtml
    obtain ⟨tree, htree, hrender⟩ := compile_eq_ok.1 hhtml
    obtain ⟨parts, opened, hparts, rfl, rfl⟩ := parse_eq_ok_iff.1 htree
    rw [Html.eq_pieces_of_renderTree hrender]
    apply Html.isValid_pieces _ _ (documentTree parts) fun _ => id
    · intro layer hhas span hspan
      have hends := (onBoundaries_of_has hparts hvalid hhas).1 span hspan
      exact hends.start.isValid_slice hends.stop
    · intro layer hhas span hspan
      obtain ⟨inner, hinner, _, hends⟩ := (onBoundaries_of_has hparts hvalid hhas).2 span hspan
      rw [Span.contents_of_inner _ hinner]
      exact hends.start.isValid_slice hends.stop

/-- The source `é ~code("ü")`, with a character of two bytes in a text and one in a string. -/
def encodingSample : Bytes :=
  [0xc3, 0xa9, 0x20, tilde, 0x63, 0x6f, 0x64, 0x65, 0x28, quote, 0xc3, 0xbc, quote, 0x29]

/-- Its arena: the text, the command, and what is around them. -/
def encodingSampleArena : Arena where
  nodes := #[.text ⟨0, 3⟩, .command ⟨4, 8⟩ [.string ⟨9, 13⟩], .paragraph [0, 1], .group [2]]
  root := 3

theorem parse_onBoundaries_sample :
    Span.OnBoundaries encodingSample ⟨0, 3⟩ ∧ Span.InnerOnBoundaries encodingSample ⟨9, 13⟩
      ∧ ∃ html, compile encodingSample = .ok html ∧ IsValid html := by
  let command : Node Tree := .command ⟨4, 8⟩ [.string ⟨9, 13⟩]
  let tree : Tree := .node (.group [.node (.paragraph [.node (.text ⟨0, 3⟩), .node command])])
  have htree : Tree.parse encodingSample = .ok tree := rfl
  have hchars : Utf8.encodeChars ['é', ' ', '~', 'c', 'o', 'd', 'e', '(', '"', 'ü', '"', ')']
      = encodingSample := by
    decide +kernel
  have hchecks : ∀ shape ∈ tree.preorder, Html.checkNode encodingSample shape = .ok () := by
    have hlayers : tree.preorder = [.group [()], .paragraph [(), ()], .text ⟨0, 3⟩,
        .command ⟨4, 8⟩ [.string ⟨9, 13⟩]] := rfl
    rw [hlayers]
    intro shape hshape
    simp only [List.mem_cons, List.not_mem_nil, or_false] at hshape
    rcases hshape with rfl | rfl | rfl | rfl <;> rfl
  have hcompile := compile_eq_ok.2 ⟨tree, htree, Html.renderTree_eq_pieces _ tree hchecks⟩
  have hparse : parse encodingSample = .ok encodingSampleArena := by
    rw [parse, htree]
    rfl
  obtain ⟨hlayers, hhtml⟩ := parse_onBoundaries ⟨_, hchars⟩ hparse
  refine ⟨?_, ?_, _, hcompile, hhtml _ hcompile⟩
  · exact (hlayers 0 _ rfl).1 _ (List.mem_singleton_self _)
  · exact (hlayers 1 _ rfl).2 _ (List.mem_singleton_self _)

end TildeMarkup
