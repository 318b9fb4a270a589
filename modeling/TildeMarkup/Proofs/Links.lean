import TildeMarkup.Proofs.Failures
import TildeMarkup.Proofs.Html.Pieces
import TildeMarkup.Proofs.LineEnds.Rendering

/-!
# The target of a link

A link is an anchor around its text, and what is written between the quotes of its target is the value
of the anchor, byte for byte. Whoever reads the output takes the value up to the next double quote. That
is all of the target, unless the target has a double quote itself: then the value is cut in front of the
first of them, and the backslash of the escape is the last of it (`compile_link`).

What is rendered of any part of a document stands in the output as it is (`renderTree_of_has`), so the
anchor of every link is there to be read.
-/

namespace TildeMarkup

namespace Html

open TildeMarkup.Tree

/-- The value of a quoted attribute, read from behind its opening quote. -/
def attributeValue (html : Bytes) : Bytes :=
  html.takeWhile (· != quote)

/-- What an anchor starts with, up to the value of its target. -/
def anchorStart : Bytes :=
  Utf8.encode "<a href=\""

/-- An anchor around some text, with a target as it is written. -/
def anchor (target text : Bytes) : Bytes :=
  anchorStart ++ (target ++ (Utf8.encode "\">" ++ (text ++ closeTag "a")))

/-! ## Values of attributes -/

/-- A value that is read holds no quote. -/
theorem not_mem_attributeValue (html : Bytes) : quote ∉ attributeValue html := by
  intro h
  unfold attributeValue at h
  have hpassed := List.all_eq_true.1 List.all_takeWhile quote h
  simp at hpassed

/-- A value without a quote in it is read up to the one that ends it. -/
theorem attributeValue_append {front : Bytes} (h : quote ∉ front) (back : Bytes) :
    attributeValue (front ++ quote :: back) = front := by
  unfold attributeValue
  rw [List.takeWhile_append_of_pos, List.takeWhile_cons_of_neg (by simp), List.append_nil]
  intro b hb
  exact bne_iff_ne.2 fun hquote => h (hquote ▸ hb)

/-- A value is read back exactly if there is no quote in it. -/
theorem attributeValue_eq_iff {value back : Bytes} :
    attributeValue (value ++ quote :: back) = value ↔ quote ∉ value := by
  constructor
  · intro h
    rw [← h]
    exact not_mem_attributeValue _
  · intro h
    exact attributeValue_append h back

/-- A quote that does not end a string has a backslash in front of it. -/
theorem exists_of_quotable_append {escaped : Bool} {front back : Bytes}
    (h : Spelling.quotable escaped (front ++ quote :: back) = true) :
    (front = [] ∧ escaped = true) ∨ ∃ init, front = init ++ [backslash] := by
  induction front generalizing escaped with
  | nil =>
    rw [List.nil_append, Spelling.quotable] at h
    simp at h
    exact .inl ⟨rfl, h.1⟩
  | cons b rest ih =>
    rw [List.cons_append, Spelling.quotable, Bool.and_eq_true] at h
    rcases ih h.2 with ⟨rfl, hescape⟩ | ⟨init, rfl⟩
    · exact .inr ⟨[], by rw [beq_iff_eq.1 hescape, List.nil_append]⟩
    · exact .inr ⟨b :: init, rfl⟩

/-- The first quote inside of a string is escaped. -/
theorem exists_of_quotable {raw : Bytes} (h : Spelling.quotable false raw = true)
    (hquote : quote ∈ raw) :
    ∃ front back, raw = front ++ backslash :: quote :: back ∧ quote ∉ front := by
  obtain ⟨before, back, rfl, hbefore⟩ := List.eq_append_cons_of_mem hquote
  rcases exists_of_quotable_append h with ⟨_, hescape⟩ | ⟨front, rfl⟩
  · cases hescape
  · refine ⟨front, back, by simp, fun hmem => hbefore (List.mem_append_left _ hmem)⟩

/-- What is read back of a target with a quote in it: all in front of the first one, with the backslash
of the escape. -/
theorem attributeValue_quotable {target : Bytes} (h : Spelling.quotable false target = true)
    (hquote : quote ∈ target) (back : Bytes) :
    ∃ front rest, target = front ++ backslash :: quote :: rest ∧ quote ∉ front
      ∧ attributeValue (target ++ quote :: back) = front ++ [backslash] := by
  obtain ⟨front, rest, rfl, hfront⟩ := exists_of_quotable h hquote
  have hvalue : quote ∉ front ++ [backslash] := by
    simpa [backslash, quote] using hfront
  refine ⟨front, rest, rfl, hfront, ?_⟩
  simpa using attributeValue_append hvalue (rest ++ quote :: back)

/-! ## Parts of the output -/

section Parts

variable {source : Bytes} {child : Tree}

/-- What is part of the content of an element is part of the element. -/
theorem infix_enclose {found content : List Piece} (h : found <:+: content) (tag : String)
    (attributes : Bytes) : found <:+: enclose tag attributes content := by
  have hcontent : content <:+: enclose tag attributes content := by
    unfold enclose
    rw [← List.singleton_append, ← List.append_assoc]
    exact List.infix_append ..
  exact h.trans hcontent

/-- A valid command renders all that stands inside of its arguments. -/
theorem infix_pieces_call {name : Span} {args : List (Argument Tree)}
    (hvalid : ValidCall source name args) (hchild : child ∈ args.flatMap Argument.children) :
    pieces source child <:+: pieces source (.node (.command name args)) := by
  obtain ⟨builtin, hfind, hkinds, _⟩ := hvalid
  have hreads := reads_of_kinds (Builtin.mem_all_of_find? hfind) hkinds
  simp only [pieces_node, Node.map, pieceNode, hfind]
  unfold Builtin.Reads at hreads
  cases hform : builtin.form with
  | enclosed =>
    simp only [hform] at hreads
    obtain ⟨arg, rfl, _⟩ := hreads
    simp only [List.map_singleton, pieceCall, hform, Argument.children_map]
    apply infix_enclose
    apply List.infix_of_mem_flatten
    exact List.mem_map_of_mem (by simpa using hchild)
  -- A command over strings holds no nodes, so there is none inside.
  | code =>
    simp only [hform] at hreads
    obtain ⟨text, rfl⟩ := hreads
    cases hchild
  | link =>
    simp only [hform] at hreads
    obtain ⟨content, span, href, rfl⟩ := hreads
    have hsame : child = content := by simpa [Argument.children] using hchild
    rw [hsame]
    simp only [List.map_cons, List.map_nil, Argument.map, pieceCall, hform]
    exact infix_enclose (List.infix_refl _) _ _
  | listing =>
    simp only [hform] at hreads
    obtain ⟨file, text, rfl⟩ := hreads
    cases hchild

/-- What is rendered of a part of a tree is part of what is rendered of the tree. -/
theorem infix_pieces {tree : Tree} {layer : Node Tree} (h : tree.Has layer)
    (hvalid : ∀ name args, tree.Has (.command name args) → ValidCall source name args) :
    pieces source (.node layer) <:+: pieces source tree := by
  induction h with
  | here layer => exact List.infix_refl _
  | @child layer found child hchild h ih =>
    -- From part to part on the way down, each inside of the one above.
    have hfound := ih fun name args hhas => hvalid name args (.child hchild hhas)
    refine hfound.trans ?_
    have hflatten {children : List Tree} (hmem : child ∈ children) :
        pieces source child <:+: (children.map (pieces source)).flatten :=
      List.infix_of_mem_flatten (List.mem_map_of_mem hmem)
    cases layer with
    | group children => rw [pieces_node]; exact hflatten hchild
    | paragraph children => rw [pieces_node]; exact infix_enclose (hflatten hchild) _ _
    | text span => cases hchild
    | command name args => exact infix_pieces_call (hvalid name args (.here _)) hchild

/-- Every part of a tree that is rendered is rendered itself, and stands in the output. -/
theorem renderTree_of_has {html : Bytes} {tree : Tree} {layer : Node Tree} (h : tree.Has layer)
    (hvalid : ∀ name args, tree.Has (.command name args) → ValidCall source name args)
    (hhtml : renderTree source tree = .ok html) :
    renderTree source (.node layer) = .ok (Piece.bytesAll (pieces source (.node layer)))
      ∧ ∃ before after, html = before ++ (Piece.bytesAll (pieces source (.node layer)) ++ after) := by
  constructor
  · have hchecks := exists_walk_eq_ok.1 ⟨html, hhtml⟩
    apply renderTree_eq_pieces
    intro shape hshape
    obtain ⟨found, hfound, rfl⟩ := mem_preorder.1 hshape
    exact hchecks _ (mem_preorder.2 ⟨found, h.trans hfound, rfl⟩)
  · obtain ⟨front, back, hpieces⟩ := infix_pieces h hvalid
    refine ⟨Piece.bytesAll front, Piece.bytesAll back, ?_⟩
    rw [eq_pieces_of_renderTree hhtml, ← hpieces, bytesAll_append, bytesAll_append,
      List.append_assoc]

/-- The pieces of a link are those of an anchor. -/
theorem bytesAll_link (target : Bytes) (content : List Piece) :
    Piece.bytesAll (enclose "a" (Utf8.encode " href=\"" ++ (target ++ Utf8.encode "\"")) content)
      = anchor target (Piece.bytesAll content) := by
  have hstart : anchorStart = Utf8.encode ("<" ++ "a") ++ Utf8.encode " href=\"" := rfl
  have hstop : Utf8.encode "\">" = Utf8.encode "\"" ++ Utf8.encode ">" := rfl
  rw [bytesAll_enclose, anchor, hstart, hstop]
  simp only [List.append_assoc]

/-- A valid link has a text and a target, and is rendered as an anchor. -/
theorem exists_link {name : Span} {args : List (Argument Tree)} (hvalid : ValidCall source name args)
    (hname : commandName source name = "link") :
    ∃ content place href, args = [.inline content place, .string href]
      ∧ Piece.bytesAll (pieces source (.node (.command name args)))
        = anchor (href.contents source) (Piece.bytesAll (pieces source content)) := by
  obtain ⟨builtin, hfind, hkinds, _⟩ := hvalid
  -- The name says which command it is, and with it what the arguments are.
  have hlink : builtin = ⟨"link", "a", [⟨"text", .inline⟩, ⟨"href", .string⟩], .link⟩ := by
    rw [hname] at hfind
    exact (Option.some.inj hfind).symm
  have hreads := reads_of_kinds (Builtin.mem_all_of_find? hfind) hkinds
  rw [hlink] at hreads hfind
  obtain ⟨content, place, href, rfl⟩ := hreads
  refine ⟨content, place, href, rfl, ?_⟩
  rw [← bytesAll_link, pieces_node]
  simp only [Node.map, pieceNode, hfind]
  rfl

/-- What is read behind the start of an anchor. -/
theorem attributeValue_anchor (before target text after : Bytes) :
    ∃ back, attributeValue ((before ++ (anchor target text ++ after)).drop
      (before ++ anchorStart).length) = attributeValue (target ++ quote :: back) := by
  have hstop : Utf8.encode "\">" = quote :: Utf8.encode ">" := rfl
  refine ⟨Utf8.encode ">" ++ (text ++ (closeTag "a" ++ after)), ?_⟩
  rw [anchor, List.append_assoc anchorStart, ← List.append_assoc before, List.drop_left, hstop]
  simp only [List.append_assoc, List.cons_append]

end Parts

end Html

open Html Spelling

/-! ## Links of a source -/

/-- The contents of a string of a parsed source are those of a literal. -/
theorem quotable_contents {source : Bytes} {tree : Tree} (htree : Tree.parse source = .ok tree)
    {name : Span} {args : List (Argument Tree)} (hhas : tree.Has (.command name args)) {span : Span}
    (hspan : .string span ∈ args) : quotable false (span.contents source) = true := by
  obtain ⟨parts, opened, hparts, rfl, rfl⟩ := parse_eq_ok_iff.1 htree
  obtain ⟨n, letters, gap, listed, spelled, hholds, rfl, rfl⟩ := holds_command hhas
  obtain ⟨front, arg, back, rfl, harg⟩ := Arg.exists_of_mem_argumentsAll hspan
  obtain ⟨_, _, _, _, hargs⟩ := hholds.fits_call hparts
  have hfits := (Arg.fitsAll_append.1 hargs).2.1
  cases arg with
  | string raw =>
    cases List.mem_singleton.1 harg
    have hat := at_arg hholds.located
    rw [Arg.bytes] at hat
    rw [hat.contents]
    exact hfits
  | inline part =>
    obtain ⟨_, _, hinline⟩ := List.mem_map.1 harg
    cases hinline
  | ident => cases List.mem_singleton.1 harg
  | block => cases List.mem_singleton.1 harg
  | _ => cases harg

/-- A link is an anchor around its text, with its target copied into it. The value that is read there is
the target exactly if there is no double quote in it, and otherwise what stands in front of the first
one. -/
theorem compile_link {source html : Bytes} {tree : Tree} {name : Span} {args : List (Argument Tree)}
    (htree : Tree.parse source = .ok tree) (hcompile : compile source = .ok html)
    (hhas : tree.Has (.command name args)) (hname : commandName source name = "link") :
    ∃ content place href text before after, args = [.inline content place, .string href]
      ∧ renderTree source content = .ok text
      ∧ renderTree source (.node (.command name args)) = .ok (anchor (href.contents source) text)
      ∧ html = before ++ (anchor (href.contents source) text ++ after)
      ∧ (attributeValue (html.drop (before ++ anchorStart).length) = href.contents source
        ↔ quote ∉ href.contents source)
      ∧ (quote ∈ href.contents source →
        ∃ front back, href.contents source = front ++ backslash :: quote :: back ∧ quote ∉ front
          ∧ attributeValue (html.drop (before ++ anchorStart).length) = front ++ [backslash]) := by
  have hparse : parse source = .ok tree.toArena := by
    rw [parse, htree]
    rfl
  have hrender : renderTree source tree = .ok html := by
    rw [compile_eq, htree] at hcompile
    exact hcompile
  -- A source that compiles has valid commands only.
  have hvalid : ∀ name args, tree.Has (.command name args) → ValidCall source name args := by
    intro name args
    rw [compile_of_ok hparse] at hcompile
    exact ((exists_render_iff hparse).1 ⟨html, hcompile⟩).validCall
  obtain ⟨content, place, href, rfl, hpieces⟩ := exists_link (hvalid name args hhas) hname
  obtain ⟨hpart, before, after, hhtml⟩ := renderTree_of_has hhas hvalid hrender
  rw [hpieces] at hpart hhtml
  obtain ⟨below⟩ := content
  have hbelow : tree.Has below := hhas.trans (.child (List.mem_singleton_self _) (.here below))
  have hcontent := (renderTree_of_has hbelow hvalid hrender).1
  refine ⟨.node below, place, href, _, before, after, rfl, hcontent, hpart, hhtml, ?_⟩
  obtain ⟨back, hvalue⟩ := attributeValue_anchor before (href.contents source)
    (Piece.bytesAll (pieces source (.node below))) after
  rw [hhtml, hvalue]
  refine ⟨attributeValue_eq_iff, fun hquote => ?_⟩
  have hstring := quotable_contents htree hhas (List.mem_cons_of_mem _ (List.mem_singleton_self _))
  exact attributeValue_quotable hstring hquote back

/-- A link whose target has an escaped quote. -/
def linksSample : Bytes :=
  Utf8.encode "~link([x], \"a\\\"b\")"

/-- The command in it, over the text `x` and a string of six bytes. -/
def linksSampleCommand : Node Tree :=
  .command ⟨1, 5⟩ [.inline (.node (.group [.node (.text ⟨7, 8⟩)])) ⟨6, 9⟩, .string ⟨11, 17⟩]

/-- Its output. The backslash of the escape is still in it. -/
def linksSampleHtml : Bytes :=
  Utf8.encode "<a href=\"a\\\"b\">x</a>"

/-- The sample is read as one command. -/
theorem parse_linksSample :
    Tree.parse linksSample = .ok (.node (.group [.node linksSampleCommand])) :=
  rfl

/-- It is rendered with the target copied into it. -/
theorem compile_linksSample : compile linksSample = .ok linksSampleHtml := by
  have hlayers : (Tree.node (.group [.node linksSampleCommand])).preorder = [.group [()],
      .command ⟨1, 5⟩ [.inline () ⟨6, 9⟩, .string ⟨11, 17⟩], .group [()], .text ⟨7, 8⟩] := rfl
  have hpieces : Piece.bytesAll (pieces linksSample (.node (.group [.node linksSampleCommand])))
      = linksSampleHtml := by
    decide +kernel
  rw [compile_eq, parse_linksSample, ← hpieces]
  apply renderTree_eq_pieces
  rw [hlayers]
  intro shape hshape
  simp only [List.mem_cons, List.not_mem_nil, or_false] at hshape
  rcases hshape with rfl | rfl | rfl | rfl <;> rfl

theorem has_linksSample : (Tree.node (.group [.node linksSampleCommand])).Has linksSampleCommand :=
  .child (List.mem_singleton_self _) (.here _)

theorem compile_link_sample :
    ∃ content place href text before after,
      linksSampleCommand = .command ⟨1, 5⟩ [.inline content place, .string href]
        ∧ renderTree linksSample content = .ok text
        ∧ renderTree linksSample (.node linksSampleCommand)
          = .ok (anchor (href.contents linksSample) text)
        ∧ linksSampleHtml = before ++ (anchor (href.contents linksSample) text ++ after)
        ∧ ∃ front back, href.contents linksSample = front ++ backslash :: quote :: back
          ∧ quote ∉ front
          ∧ attributeValue (linksSampleHtml.drop (before ++ anchorStart).length)
            = front ++ [backslash] := by
  obtain ⟨content, place, href, text, before, after, hargs, htext, hanchor, hhtml, _, hcut⟩ :=
    compile_link parse_linksSample compile_linksSample has_linksSample rfl
  have hquote : quote ∈ href.contents linksSample := by
    cases hargs
    decide
  exact ⟨content, place, href, text, before, after, congrArg _ hargs, htext, hanchor, hhtml,
    hcut hquote⟩

/-- No target that is read out of the output is the one in the source, wherever an anchor starts in it. -/
theorem target_not_read_back :
    Tree.parse linksSample = .ok (.node (.group [.node linksSampleCommand]))
      ∧ compile linksSample = .ok linksSampleHtml
      ∧ commandName linksSample ⟨1, 5⟩ = "link"
      ∧ ∀ before after, linksSampleHtml = before ++ (anchorStart ++ after) →
        attributeValue after ≠ Span.contents ⟨11, 17⟩ linksSample := by
  refine ⟨parse_linksSample, compile_linksSample, rfl, fun before after _ hvalue => ?_⟩
  apply not_mem_attributeValue after
  rw [hvalue]
  decide

end TildeMarkup
