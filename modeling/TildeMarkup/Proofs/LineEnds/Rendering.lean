import TildeMarkup.Proofs.Html.Pieces
import TildeMarkup.Proofs.LineEnds.Reading
import TildeMarkup.Proofs.LineEnds.Text
import TildeMarkup.Proofs.Rendering
import TildeMarkup.Proofs.Spelling.Typing

/-!
# Rendering with carriage returns

A document does not tell how the lines of its source end. With a carriage return in front of every line
feed a source compiles exactly if it does without, and to the same HTML if there is no line feed in its
strings but in the text of listings (`compile_crlf`): texts and names have none, and a listing is cut
into lines.
-/

namespace TildeMarkup

open Spelling Html

/-! ## What is read -/

/-- The spans of a document over the source with carriage returns. -/
def crlfSpan (source : Bytes) : Span → Span :=
  Span.map (crlfOffset source)

/-- What stands in the source is read from the other one with its line ends. -/
theorem slice_crlf {source bytes : Bytes} {n : Nat} (h : At source n bytes) :
    (crlfSpan source ⟨n, n + bytes.length⟩).slice (crlf source) = crlf bytes := by
  obtain ⟨hat, hstop⟩ := h.crlf
  rw [crlfSpan, Span.map, hstop]
  exact hat.slice

/-- So is what stands between the quotes of a string. -/
theorem contents_crlf {source raw : Bytes} {n : Nat} (h : At source n (quote :: (raw ++ [quote]))) :
    (crlfSpan source ⟨n, n + raw.length + 2⟩).contents (crlf source) = crlf raw := by
  obtain ⟨hat, hstop⟩ := h.crlf
  have hquoted : crlf (quote :: (raw ++ [quote])) = quote :: (crlf raw ++ [quote]) := by
    rw [crlf, withReturns_cons (by decide), withReturns_append]
    rfl
  have hlength (raw : Bytes) : (quote :: (raw ++ [quote])).length = raw.length + 2 := by simp
  rw [hquoted, hlength, hlength, ← Nat.add_assoc, ← Nat.add_assoc] at hstop
  rw [hquoted] at hat
  rw [crlfSpan, Span.map, hstop]
  exact hat.contents

section Layers

variable {source : Bytes} {tree : Tree} {name : Span} {args : List (Argument Tree)}

/-- A text holds no line feed, so the same bytes are read. -/
theorem slice_text_crlf (htree : Tree.parse source = .ok tree) {span : Span}
    (h : tree.Has (.text span)) :
    (crlfSpan source span).slice (crlf source) = span.slice source := by
  obtain ⟨parts, opened, hparts, rfl, rfl⟩ := parse_eq_ok_iff.1 htree
  have hfeed := ((wellTyped_documentTree hparts).text span h).lineFeed
  obtain ⟨m, bytes, hholds, rfl⟩ := holds_text h
  have hat : At _ m bytes := hholds.located
  rw [hat.slice] at hfeed ⊢
  rw [slice_crlf hat, crlf, withReturns_of_not_mem hfeed]

/-- Nor does a name. -/
theorem slice_name_crlf (htree : Tree.parse source = .ok tree) (h : tree.Has (.command name args)) :
    (crlfSpan source name).slice (crlf source) = name.slice source := by
  obtain ⟨parts, opened, hparts, rfl, rfl⟩ := parse_eq_ok_iff.1 htree
  obtain ⟨m, letters, gap, listed, spelled, hholds, rfl, rfl⟩ := holds_command h
  obtain ⟨hletters, _⟩ := hholds.fits_call hparts
  have hcall := hholds.located
  rw [Part.bytes] at hcall
  have hat := hcall.tail.left
  have hfeed : lineFeed ∉ letters := fun hmem =>
    absurd (List.all_eq_true.1 hletters _ hmem) (by decide)
  rw [slice_crlf hat, hat.slice, crlf, withReturns_of_not_mem hfeed]

/-- A string may hold some, and then is read with carriage returns. -/
theorem contents_string_crlf (htree : Tree.parse source = .ok tree)
    (h : tree.Has (.command name args)) {span : Span} (hspan : .string span ∈ args) :
    (crlfSpan source span).contents (crlf source) = crlf (span.contents source) := by
  obtain ⟨parts, opened, hparts, rfl, rfl⟩ := parse_eq_ok_iff.1 htree
  obtain ⟨m, letters, gap, listed, spelled, hholds, _, rfl⟩ := holds_command h
  obtain ⟨front, found, back, rfl, hfound⟩ := Arg.exists_of_mem_argumentsAll hspan
  have hat := at_arg hholds.located
  -- Of all arguments only a string has a string for its node.
  cases found with
  | string raw =>
    cases List.mem_singleton.1 hfound
    rw [contents_crlf hat, hat.contents]
  | inline part =>
    obtain ⟨_, _, heq⟩ := List.mem_map.1 hfound
    cases heq
  | _ => cases hfound <;> rename_i hfound <;> cases hfound

/-! ## Valid calls -/

theorem not_mem_of_mem_slice {span : Span} {b : UInt8} (h : b ∉ source) : b ∉ span.slice source :=
  fun hmem => h (List.mem_of_mem_drop (List.mem_of_mem_take hmem))

/-- The text of a string with carriage returns in its contents. -/
theorem stringText_crlf {f : Span → Span} {other : Bytes} {span : Span}
    (h : (f span).contents other = crlf (span.contents source)) :
    stringText other (f span) = String.ofList (crlfChars (stringText source span).toList) := by
  rw [stringText, stringText, h, Text.unescape, Text.unescape, Utf8.decode, Utf8.decode,
    String.toList_ofList, String.toList_ofList, String.toList_ofList, decodeChars_crlf,
    unescapeChars_crlf]

theorem return_not_mem_stringText (hreturn : carriageReturn ∉ source) (span : Span) :
    '\r' ∉ (stringText source span).toList := by
  rw [stringText, Text.unescape, Utf8.decode, String.toList_ofList, String.toList_ofList]
  exact fun hmem => return_not_mem_decodeChars (not_mem_of_mem_slice hreturn)
    (mem_of_mem_unescapeChars hmem)

/-- The lines of a listing do not tell how they end in the source. -/
theorem lines_crlf (hreturn : carriageReturn ∉ source) {f : Span → Span} {other : Bytes} {span : Span}
    (h : (f span).contents other = crlf (span.contents source)) :
    Text.lines (escape (stringText other (f span))) = Text.lines (escape (stringText source span)) := by
  have hescape := return_not_mem_escapeChars (return_not_mem_stringText hreturn span)
  rw [stringText_crlf h, Text.lines, Text.lines, toList_escape, toList_escape, String.toList_ofList,
    escapeChars_crlf, lineChars_crlf hescape]

/-- A command is valid over both sources, or over none. -/
theorem validCall_crlf {α : Type} {f : Span → Span} {other : Bytes} {args : List (Argument α)}
    (hreturn : carriageReturn ∉ source) (hname : (f name).slice other = name.slice source)
    (hstring : ∀ span, .string span ∈ args → (f span).contents other = crlf (span.contents source)) :
    ValidCall other (f name) (args.map (Argument.respan f)) ↔ ValidCall source name args := by
  have hkinds : (args.map (Argument.respan f)).map Argument.kind = args.map Argument.kind := by
    rw [List.map_map]
    exact List.map_congr_left fun arg _ => Argument.kind_respan f arg
  have hfile {file : Span} (hmem : .string file ∈ args) :
      (∃ extension ∈ Listing.languages.map Prod.fst,
        Listing.HasExtension (stringText other (f file)) extension)
      ↔ ∃ extension ∈ Listing.languages.map Prod.fst,
        Listing.HasExtension (stringText source file) extension := by
    -- No extension in the table has a line end in it.
    have hplain : ∀ extension ∈ Listing.languages.map Prod.fst,
        '\n' ∉ extension.toList ∧ '\r' ∉ extension.toList := by
      decide
    refine exists_congr fun extension => and_congr_right fun hextension => ?_
    obtain ⟨hfeed, hnone⟩ := hplain extension hextension
    rw [stringText_crlf (hstring file hmem),
      hasExtension_crlf (return_not_mem_stringText hreturn file) hfeed hnone, String.ofList_toList]
  rw [ValidCall, ValidCall, commandName_respan hname, hkinds]
  refine exists_congr fun builtin => and_congr_right fun _ => and_congr_right fun _ =>
    imp_congr_right fun _ => ⟨?_, ?_⟩
  · rintro h file rest rfl
    exact (hfile List.mem_cons_self).1 (h (f file) _ rfl)
  · intro h file rest hargs
    obtain ⟨arg, more, rfl, harg, _⟩ := List.map_eq_cons_iff.1 hargs
    cases arg with
    | string span =>
      cases harg
      exact (hfile List.mem_cons_self).2 (h span more rfl)
    | _ => cases harg

/-- A command passes its check over both sources, or over none. -/
theorem checkNode_eq_ok_crlf {f : Span → Span} {other : Bytes} {args : List (Argument Unit)}
    (hreturn : carriageReturn ∉ source) (hname : (f name).slice other = name.slice source)
    (hstring : ∀ span, .string span ∈ args → (f span).contents other = crlf (span.contents source)) :
    checkNode other ((Node.command name args).respan f) = .ok ()
      ↔ checkNode source (.command name args) = .ok () := by
  have hvalid := validCall_crlf hreturn hname hstring
  rw [← checkCommand_eq_ok, ← checkCommand_eq_ok] at hvalid
  show (do checkName _ _; (checkCommand _ _ _).mapError Failure.fault) = _ ↔ _
  rw [checkName_respan hname, checkNode]
  cases checkName source name with
  | error failure => exact iff_of_false (fun h => by cases h) fun h => by cases h
  | ok _ =>
    cases hother : checkCommand other (f name) (args.map (Argument.respan f)) with
    | error fault =>
      rw [hother] at hvalid
      cases hsource : checkCommand source name args with
      | error fault' => exact iff_of_false (fun h => by cases h) fun h => by cases h
      | ok _ => cases hvalid.2 hsource
    | ok _ =>
      rw [hvalid.1 hother]
      exact Iff.rfl

end Layers

/-! ## Documents -/

theorem Node.children_respan {α : Type} (f : Span → Span) (layer : Node α) :
    (layer.respan f).children = layer.children := by
  cases layer with
  | command name args =>
    show (args.map (Argument.respan f)).flatMap Argument.children = args.flatMap Argument.children
    rw [List.flatMap_map]
    exact List.flatMap_congr fun arg _ => Argument.children_respan f arg
  | _ => rfl

theorem Tree.preorder_respan (f : Span → Span) : ∀ tree : Tree,
    (tree.respan f).preorder = tree.preorder.map (Node.respan f) := by
  refine Tree.induction fun layer ih => ?_
  have hshape : ((layer.map (Tree.respan f)).respan f).shape = layer.shape.respan f := by
    rw [Node.shape_respan, Node.shape_map]
  rw [Tree.respan_node, Tree.preorder_node, Tree.preorder_node, hshape, Node.children_respan,
    Node.children_map, List.flatMap_map, List.map_cons, List.map_flatMap]
  exact congrArg (layer.shape.respan f :: ·) (List.flatMap_congr ih)

section Documents

variable {source : Bytes} {tree : Tree}

/-- A document can be rendered over both sources, or over none. -/
theorem exists_renderTree_crlf (hreturn : carriageReturn ∉ source)
    (htree : Tree.parse source = .ok tree) :
    (∃ html, renderTree (crlf source) (tree.respan (crlfSpan source)) = .ok html)
      ↔ ∃ html, renderTree source tree = .ok html := by
  rw [renderTree, renderTree, Tree.exists_walk_eq_ok, Tree.exists_walk_eq_ok, Tree.preorder_respan,
    List.forall_mem_map]
  refine forall_congr' fun shape => imp_congr_right fun hshape => ?_
  obtain ⟨layer, hlayer, rfl⟩ := Tree.mem_preorder.1 hshape
  -- Only the check of a command reads the source; its name and its strings are read as before, but for
  -- returns.
  cases layer with
  | command name args =>
    have hname := slice_name_crlf htree hlayer
    refine checkNode_eq_ok_crlf hreturn hname fun span hspan => ?_
    obtain ⟨arg, harg, hstring⟩ := List.mem_map.1 hspan
    cases arg with
    | string found =>
      cases hstring
      exact contents_string_crlf htree hlayer harg
    | _ => cases hstring
  | _ => exact Iff.rfl

/-- What is below an argument does not make it a string. -/
theorem getElem?_map_string {α β : Type} (g : α → β) (args : List (Argument α)) (i : Nat)
    (span : Span) :
    (args.map (Argument.map g))[i]? = some (.string span) ↔ args[i]? = some (.string span) := by
  rw [List.getElem?_map]
  cases args[i]? with
  | none => simp
  | some arg => cases arg <;> simp [Argument.map]

/-- The strings of the document hold no line feed, but for the texts of listings. -/
def FeedsInListings (source : Bytes) (tree : Tree) : Prop :=
  ∀ name args i span, tree.Has (.command name args) → args[i]? = some (.string span) →
    lineFeed ∈ span.contents source → commandName source name = "codeblock" ∧ i = 1

/-- A layer is rendered alike over both sources. Of the strings, only the text of a listing may differ,
and its lines do not. -/
theorem agrees_crlf (hreturn : carriageReturn ∉ source) (htree : Tree.parse source = .ok tree)
    (hfeeds : FeedsInListings source tree) {layer : Node Tree} (hlayer : tree.Has layer) :
    (visit source).Agrees (visit (crlf source)) (crlfSpan source) layer := by
  cases layer with
  | text span => exact agrees_of_alike (slice_text_crlf htree hlayer)
  | command name args =>
    have hname := slice_name_crlf htree hlayer
    have hstring {i : Nat} {span : Span} (harg : args[i]? = some (.string span)) :=
      contents_string_crlf htree hlayer (List.mem_of_getElem? harg)
    have hplain {i : Nat} {span : Span} (harg : args[i]? = some (.string span))
        (hnot : ¬ (commandName source name = "codeblock" ∧ i = 1)) :
        (crlfSpan source span).contents (crlf source) = span.contents source := by
      have hfeed : lineFeed ∉ span.contents source := fun hmem =>
        hnot (hfeeds name args i span hlayer harg hmem)
      rw [hstring harg, crlf, withReturns_of_not_mem hfeed]
    -- A listing is rendered by its file and the lines of its text; any other command by its strings as
    -- they are.
    by_cases hcodeblock : commandName source name = "codeblock"
    · constructor
      · refine checkNode_command_respan hname fun file rest hargs => ?_
        have harg : (args.map (Argument.map fun _ => ()))[0]? = some (.string file) := by
          rw [hargs]
          rfl
        exact hplain ((getElem?_map_string _ args 0 file).1 harg) fun h => absurd h.2 (by decide)
      · intro done hdone
        obtain ⟨more, rfl, hmore⟩ := Node.shape_eq_command hdone
        show renderNode (crlf source) (.command (crlfSpan source name) (more.map _))
          = renderNode source (.command name more)
        rw [renderNode, renderNode, commandName_respan hname]
        cases hfind : Builtin.find? (commandName source name) with
        | none => rfl
        | some builtin =>
          have hsame : builtin.name = commandName source name := by
            simpa using List.find?_some hfind
          have hform : builtin.form = .listing :=
            (Builtin.form_eq_listing_iff (Builtin.mem_all_of_find? hfind)).2 (hsame.trans hcodeblock)
          refine renderCall_listing_respan hform fun file text hargs => ?_
          have harg (i : Nat) (span : Span) (h : more[i]? = some (.string span)) :
              args[i]? = some (.string span) := by
            rw [← getElem?_map_string (fun _ => ()), ← hmore, getElem?_map_string]
            exact h
          have hfile := harg 0 file (by rw [hargs]; rfl)
          have htext := harg 1 text (by rw [hargs]; rfl)
          exact ⟨hplain hfile fun h => absurd h.2 (by decide), lines_crlf hreturn (hstring htext)⟩
    · refine agrees_of_alike ⟨hname, fun arg harg hkind => ?_⟩
      obtain ⟨i, hi⟩ := List.getElem?_of_mem harg
      cases arg with
      | string span => exact hplain hi fun h => hcodeblock h.1
      | _ => cases hkind
  | _ => exact agrees_of_alike trivial

end Documents

/-- A source compiles if it is read and its tree can be rendered. -/
theorem compile_eq_ok {source html : Bytes} : compile source = .ok html
    ↔ ∃ tree, Tree.parse source = .ok tree ∧ renderTree source tree = .ok html := by
  rw [compile_eq]
  cases Tree.parse source with
  | error fault => exact iff_of_false (fun h => by cases h) fun ⟨_, h, _⟩ => by cases h
  | ok tree => simp [Except.mapError, Except.bind]

/-- The trees of the source with carriage returns. -/
theorem parse_crlf_eq_ok {source : Bytes} (hreturn : carriageReturn ∉ source) {other : Tree} :
    Tree.parse (crlf source) = .ok other
      ↔ ∃ tree, Tree.parse source = .ok tree ∧ tree.respan (crlfSpan source) = other := by
  have hsome {ε α : Type} {x : Except ε α} {a : α} : x = .ok a ↔ x.toOption = some a := by
    cases x <;> simp [Except.toOption]
  rw [hsome, parse_crlf hreturn, Option.map_eq_some_iff]
  exact exists_congr fun tree => and_congr_left fun _ => hsome.symm

/-- Line ends with a carriage return make no difference: a source compiles with them exactly if it does
without, and to the same HTML if no string has line feeds but the texts of listings. -/
theorem compile_crlf {source : Bytes} (hreturn : carriageReturn ∉ source) :
    ((∃ html, compile (crlf source) = .ok html) ↔ ∃ html, compile source = .ok html)
      ∧ ∀ tree html, Tree.parse source = .ok tree → FeedsInListings source tree →
        compile source = .ok html → compile (crlf source) = .ok html := by
  simp only [compile_eq_ok, parse_crlf_eq_ok hreturn]
  refine ⟨⟨?_, ?_⟩, ?_⟩
  · rintro ⟨html, _, ⟨tree, htree, rfl⟩, hhtml⟩
    obtain ⟨html, hhtml⟩ := (exists_renderTree_crlf hreturn htree).1 ⟨html, hhtml⟩
    exact ⟨html, tree, htree, hhtml⟩
  · rintro ⟨html, tree, htree, hhtml⟩
    obtain ⟨html, hhtml⟩ := (exists_renderTree_crlf hreturn htree).2 ⟨html, hhtml⟩
    exact ⟨html, _, ⟨tree, htree, rfl⟩, hhtml⟩
  · rintro tree html htree hfeeds ⟨_, hsame, hhtml⟩
    cases htree.symm.trans hsame
    have hrender := Tree.walk_respan tree fun layer => agrees_crlf hreturn htree hfeeds
    rw [show tree.walk (visit source) = .ok html from hhtml] at hrender
    exact ⟨_, ⟨tree, htree, rfl⟩, hrender⟩

/-- A line of text, and a listing of two lines. -/
def crlfSample : Bytes :=
  Utf8.encode "x\n~codeblock(\"a.rs\",\"1\n2\")"

theorem compile_crlf_sample :
    carriageReturn ∉ crlfSample ∧ ∃ tree html, Tree.parse crlfSample = .ok tree
      ∧ FeedsInListings crlfSample tree ∧ compile crlfSample = .ok html
      ∧ compile (crlf crlfSample) = .ok html := by
  let text : Tree := .node (.paragraph [.node (.text ⟨0, 1⟩)])
  let listing : Node Tree := .command ⟨3, 12⟩ [.string ⟨13, 19⟩, .string ⟨20, 25⟩]
  let tree : Tree := .node (.group [text, .node listing])
  have hreturn : carriageReturn ∉ crlfSample := by decide +kernel
  have htree : Tree.parse crlfSample = .ok tree := rfl
  have hlayers {layer : Node Tree} (h : tree.Has layer) : layer.shape ∈ [Node.group [(), ()],
      .paragraph [()], .text ⟨0, 1⟩, .command ⟨3, 12⟩ [.string ⟨13, 19⟩, .string ⟨20, 25⟩]] :=
    Tree.mem_preorder.2 ⟨layer, h, rfl⟩
  have hfeeds : FeedsInListings crlfSample tree := by
    intro name args i span h hspan hfeed
    have hmem := hlayers h
    simp only [Node.shape, Node.map, List.mem_cons, List.not_mem_nil, Node.command.injEq,
      reduceCtorEq, or_false, false_or] at hmem
    obtain ⟨rfl, hargs⟩ := hmem
    rw [← getElem?_map_string fun _ => (), hargs] at hspan
    rcases i with _ | _ | i
    · cases hspan
      exact absurd hfeed (by decide +kernel)
    · exact ⟨rfl, rfl⟩
    · cases hspan
  have hvalid : ValidCall crlfSample ⟨3, 12⟩ [Argument.string (α := Unit) ⟨13, 19⟩, .string ⟨20, 25⟩] := by
    refine ⟨_, rfl, rfl, fun _ file rest hargs => ⟨"rs", by decide, ['a'], ?_, by decide⟩⟩
    cases hargs
    rw [stringText, Text.unescape, Utf8.decode, String.toList_ofList, String.toList_ofList]
    rfl
  have hcompile : ∃ html, compile crlfSample = .ok html := by
    refine ⟨_, compile_eq_ok.2 ⟨tree, htree, renderTree_eq_pieces _ tree fun shape hshape => ?_⟩⟩
    obtain ⟨layer, h, rfl⟩ := Tree.mem_preorder.1 hshape
    have hmem := hlayers h
    generalize layer.shape = shape at hmem
    simp only [List.mem_cons, List.not_mem_nil, or_false] at hmem
    rcases hmem with rfl | rfl | rfl | rfl
    · rfl
    · rfl
    · rfl
    · rw [checkNode, checkCommand_eq_ok.2 hvalid]
      rfl
  obtain ⟨html, hhtml⟩ := hcompile
  exact ⟨hreturn, tree, html, htree, hfeeds, hhtml,
    (compile_crlf hreturn).2 tree html htree hfeeds hhtml⟩

end TildeMarkup
