import TildeMarkup.Proofs.Composition
import TildeMarkup.Proofs.Rendering
import TildeMarkup.Proofs.Spelling.Shift

/-!
# Documents in arguments

The content of an argument means what it means by itself (`compile_enclosed`). A document with a
line feed after it may stand in the braces of a command, and a single line in the square brackets of
one. The document is spelled by the same parts in either place, so the trees differ by a shift.
-/

namespace TildeMarkup

open Reader Spelling

namespace Html

/-- A command around its only argument gives an element around what the argument holds. -/
theorem renderTree_enclosed {source html : Bytes} {name : Span} {arg : Argument Tree}
    {builtin : Builtin} (hname : checkName source name = .ok ())
    (hfind : Builtin.find? (commandName source name) = some builtin)
    (hform : builtin.form = .enclosed) (hkinds : builtin.params.map Parameter.kind = [arg.kind])
    (hhtml : renderTree source (.node (.group arg.children)) = .ok html) :
    renderTree source (.node (.command name [arg])) = .ok (element builtin.tag html) := by
  have hcheck : checkCommand source name [arg.map fun _ => ()] = .ok () := by
    refine checkCommand_eq_ok.2 ⟨builtin, hfind, ?_, fun hlisting => ?_⟩
    · rw [hkinds, List.map_singleton, Argument.kind_map]
    · rw [← Builtin.form_eq_listing_iff (Builtin.mem_all_of_find? hfind), hform] at hlisting
      cases hlisting
  have hnode : (visit source).check (Node.command name [arg]).shape = .ok () := by
    show (do
      checkName source name
      (checkCommand source name [arg.map _]).mapError Failure.fault) = _
    rw [hname, hcheck]
    rfl
  rw [renderTree_group] at hhtml
  obtain ⟨contents, hcontents, rfl⟩ := exists_of_map_eq_ok hhtml
  -- What is rendered are the nodes inside of the argument, one after the other.
  have hchildren : (arg.mapM (renderTree source)).map Argument.children = .ok contents :=
    (Argument.children_mapM (renderTree source) arg).trans hcontents
  obtain ⟨done, hdone, rfl⟩ := exists_of_map_eq_ok hchildren
  have hargs : [arg].mapM (Argument.mapM (renderTree source)) = .ok [done] := by
    rw [List.mapM_cons, hdone, List.mapM_nil]
    rfl
  have hcall : renderCall source builtin [done] = element builtin.tag done.children.flatten := by
    simp only [renderCall, hform]
  have hwalk : renderTree source = Tree.walk (visit source) := rfl
  rw [hwalk] at hargs ⊢
  rw [Tree.walk_node, hnode, Node.mapM, hargs]
  show Except.ok (renderNode source (.command name [done])) = _
  rw [renderNode, hfind, ← hcall]

/-- The nodes of a document are rendered in an argument of a command as they are by themselves. -/
theorem renderTree_content {source html : Bytes} {parts : List Part} {blocks : Bool}
    (name after : Bytes) (kind : Bracket) (hfits : Part.FitsAll blocks parts)
    (hwithin : ∀ layer, (Tree.node (.group (Part.treesAll 0 parts))).Has layer →
      layer.Within source.length)
    (hhtml : renderTree source (.node (.group (Part.treesAll 0 parts))) = .ok html) :
    renderTree (tilde :: (name ++ kind.opener :: (source ++ after)))
      (.node (.group (Part.treesAll (argsStart 0 name [] false + 1) parts))) = .ok html := by
  -- The content stands behind the name and the opener, so that is what it is shifted by.
  let before := tilde :: (name ++ [kind.opener])
  have hbefore : argsStart 0 name [] false + 1 = before.length := by
    simp only [before, argsStart, List.length_cons, List.length_append, List.length_nil,
      Bool.false_eq_true, if_false]
    omega
  have hsource : before ++ (source ++ after)
      = tilde :: (name ++ kind.opener :: (source ++ after)) := by
    simp only [before, List.cons_append, List.append_assoc, List.nil_append]
  have hlocal := renderTree_shift before after hwithin
  rw [hhtml, Tree.shift_node, hsource] at hlocal
  rw [Part.treesAll_eq_shift hfits, hbefore]
  exact hlocal

end Html

/-- The name of a command, as its source has it. -/
theorem Builtin.name_eq {builtin : Builtin} (h : builtin ∈ Builtin.all) :
    (Utf8.encode builtin.name).all isLetter = true
      ∧ Builtin.find? (Utf8.decode (Utf8.encode builtin.name)) = some builtin := by
  -- There are few commands, so they are gone through one by one.
  revert builtin
  decide +kernel

/-- A source that is one command is rendered as that command is. -/
theorem compile_command {builtin : Builtin} {listed : Bool} {args : List Arg} {opened : List Bracket}
    {source : Bytes} (hbuiltin : builtin ∈ Builtin.all)
    (hparts : IsDocument [.call (Utf8.encode builtin.name) [] listed args] opened)
    (hsource : Part.bytesAll [.call (Utf8.encode builtin.name) [] listed args] = source) :
    ∃ name : Span, checkName source name = .ok ()
      ∧ Builtin.find? (commandName source name) = some builtin
      ∧ compile source = Html.renderTree source (.node (.command name
        (Arg.argumentsAll (argsStart 0 (Utf8.encode builtin.name) [] listed) args))) := by
  obtain ⟨_, hfind⟩ := Builtin.name_eq hbuiltin
  generalize Utf8.encode builtin.name = name at *
  let span : Span := ⟨0 + 1, 0 + 1 + name.length⟩
  let command : Node Tree := .command span (Arg.argumentsAll (argsStart 0 name [] listed) args)
  have htree : documentTree [.call name [] listed args] = .node (.group [.node command]) := by
    rw [documentTree, Part.treesAll_singleton, Part.trees]
  have hhas : (documentTree [.call name [] listed args]).Has command := by
    rw [htree]
    exact .child (List.mem_singleton_self _) (.here _)
  have hparse := parse_of_isDocument hparts
  have hchecked := checkName_eq_ok hparts hhas
  rw [hsource] at hparse hchecked
  have hname : span.slice source = name := by
    rw [← hsource, Part.bytesAll_singleton, Part.bytes]
    exact (At.self _).tail.left.slice
  rw [← hname, ← commandName] at hfind
  refine ⟨span, hchecked, hfind, ?_⟩
  rw [compile_eq, hparse, htree]
  show Html.renderTree _ (.node (.group [.node command])) = _
  rw [Html.renderTree_singleton]

/-- A source that is a command around one argument. -/
theorem compile_call {builtin : Builtin} {arg : Arg} {a : Argument Tree} {τ : List Bracket}
    {html : Bytes} (hbuiltin : builtin ∈ Builtin.all) (hform : builtin.form = .enclosed)
    (hkinds : builtin.params.map Parameter.kind = [a.kind])
    (hcall : Arg.fitsCall false [arg] = true) (hfits : arg.Fits true)
    (hcross : arg.cross [] = some τ)
    (ha : arg.arguments (argsStart 0 (Utf8.encode builtin.name) [] false) = [a])
    (hhtml : Html.renderTree (tilde :: (Utf8.encode builtin.name ++ arg.bytes))
      (.node (.group a.children)) = .ok html) :
    compile (tilde :: (Utf8.encode builtin.name ++ arg.bytes))
      = .ok (Html.element builtin.tag html) := by
  have hparts := isDocument_call (Builtin.name_eq hbuiltin).1 hcall hfits hcross
  obtain ⟨name, hchecked, hfind, hcompile⟩ :=
    compile_command hbuiltin hparts (bytesAll_call (Utf8.encode builtin.name) arg)
  rw [hcompile, Arg.argumentsAll_singleton, ha]
  exact Html.renderTree_enclosed hchecked hfind hform hkinds hhtml

/-- The steps of a compilation that gives HTML, for a source whose run is known. -/
theorem exists_tree_of_compile {source html : Bytes} {r : Reader}
    (hcompile : compile source = .ok html) (hrun : initial.run source = .ok r) :
    ∃ tree, r.finish = .ok tree ∧ Tree.parse source = .ok tree
      ∧ Html.renderTree source tree = .ok html := by
  obtain ⟨last, tree, hlast, hfinish, hparse, hhtml⟩ := exists_of_compile hcompile
  rw [hrun] at hlast
  cases hlast
  exact ⟨tree, hfinish, hparse, hhtml⟩

/-- A document with its last line ended is spelled by parts that give the same nodes. -/
theorem exists_parts_lineFeed {source : Bytes} {r : Reader} {tree : Tree}
    (hrun : initial.run source = .ok r) (hfinish : r.finish = .ok tree)
    (hreturn : source.getLast? ≠ some carriageReturn) :
    ∃ parts, IsDocument parts r.opened ∧ Part.bytesAll parts = source ++ [lineFeed]
      ∧ documentTree parts = tree := by
  obtain ⟨blocks, rfl, hstep⟩ := step_lineFeed hrun hfinish hreturn
  have hall : initial.run (source ++ [lineFeed])
      = .ok (initial.over ⟨source.length + 1, r.opened, blocks⟩) := by
    rw [run_append, hrun]
    show r.run [lineFeed] = _
    rw [run_cons, hstep]
    rfl
  have hready : (initial.over ⟨source.length + 1, r.opened, blocks⟩).finish
      = .ok (.node (.group blocks.reverse)) := rfl
  have hparts := isDocument_of_run hall hready
  exact hparts

/-- A command around blocks, whose content is a document with a line feed after it. -/
theorem compile_braces {builtin : Builtin} {source html : Bytes} {r : Reader}
    (hbuiltin : builtin ∈ Builtin.all) (hform : builtin.form = .enclosed)
    (hkinds : builtin.params.map Parameter.kind = [.block]) (hcompile : compile source = .ok html)
    (hrun : initial.run source = .ok r) (hopened : r.opened = [])
    (hreturn : source.getLast? ≠ some carriageReturn) :
    compile (tilde :: (Utf8.encode builtin.name
        ++ Bracket.curly.opener :: (source ++ [lineFeed, Bracket.curly.closer])))
      = .ok (Html.element builtin.tag html) := by
  obtain ⟨tree, hfinish, hparse, hhtml⟩ := exists_tree_of_compile hcompile hrun
  obtain ⟨parts, hparts, hsource, rfl⟩ := exists_parts_lineFeed hrun hfinish hreturn
  rw [hopened] at hparts
  have hbytes : (Arg.block parts).bytes
      = Bracket.curly.opener :: (source ++ [lineFeed, Bracket.curly.closer]) := by
    rw [Arg.bytes, hsource, List.append_assoc]
    rfl
  have hcross : (Arg.block parts).cross [] = some [] := by
    rw [Arg.cross, hparts.brackets]
    rfl
  rw [← hbytes]
  refine compile_call (a := .block _ _) hbuiltin hform hkinds rfl
    ⟨rfl, hparts.sequence, hparts.fits⟩ hcross rfl ?_
  rw [hbytes]
  exact Html.renderTree_content _ _ .curly hparts.fits (within_of_parse hparse) hhtml

/-- A line that starts with a text is spelled by a single run. -/
theorem exists_run_of_line {rest : Bytes} {first : UInt8} {parts : List Part}
    {opened : List Bracket} (hparts : IsDocument parts opened)
    (hsource : Part.bytesAll parts = first :: rest)
    (htilde : first ≠ tilde) (hblank : isBlank first = false) (hline : lineFeed ∉ first :: rest) :
    ∃ pieces, parts = [.run false pieces .none] := by
  obtain ⟨hsequence, hfits, _⟩ := hparts
  cases parts with
  | nil => cases hsource
  | cons part more =>
    rw [Part.bytesAll] at hsource
    -- The first part starts with the first byte of the line, which is no blank and no tilde.
    cases part with
    | blank b =>
      have hb : b = first := (List.cons.inj hsource).1
      rw [← hb, show isBlank b = true from hfits.1] at hblank
      cases hblank
    | text => cases hsequence
    | call => exact absurd (List.cons.inj hsource).1.symm htilde
    | run bracketed pieces ending =>
      cases bracketed with
      | true => cases hsequence
      | false =>
        cases ending with
        | none =>
          obtain ⟨_, hgoes⟩ := Option.isSome_iff_exists.1 hsequence
          obtain ⟨rfl, _⟩ := Part.eq_nil_of_inBlocks hgoes
          exact ⟨pieces, rfl⟩
        -- Any line end would put a line feed into the line.
        | _ =>
          rw [← hsource] at hline
          simp [Part.bytes, Ending.bytes] at hline

/-- A run that may be a paragraph may stand in square brackets. -/
theorem startsRun_bracketed {pieces : List Part} (h : Part.startsRun false pieces = true) :
    Part.startsRun true pieces = true := by
  match pieces, h with
  | .text (_ :: _) :: _, _ => rfl

/-- A command around an inline run, whose content is a line that starts with a text. -/
theorem compile_brackets {builtin : Builtin} {source html rest : Bytes} {first : UInt8} {r : Reader}
    (hbuiltin : builtin ∈ Builtin.all) (hform : builtin.form = .enclosed)
    (hkinds : builtin.params.map Parameter.kind = [.inline]) (hcompile : compile source = .ok html)
    (hrun : initial.run source = .ok r) (hopened : r.opened = []) (hfirst : source = first :: rest)
    (htilde : first ≠ tilde) (hblank : isBlank first = false) (hline : lineFeed ∉ source) :
    ∃ content, html = Html.element "p" content
      ∧ compile (tilde :: (Utf8.encode builtin.name
          ++ Bracket.square.opener :: (source ++ [Bracket.square.closer])))
        = .ok (Html.element builtin.tag content) := by
  obtain ⟨tree, hfinish, hparse, hhtml⟩ := exists_tree_of_compile hcompile hrun
  obtain ⟨parts, hparts, hsource, rfl⟩ := isDocument_of_run hrun hfinish
  rw [hopened] at hparts
  rw [hfirst] at hline
  obtain ⟨pieces, rfl⟩ := exists_run_of_line hparts (hsource.trans hfirst) htilde hblank hline
  -- The paragraph of the document and the run in brackets are over the same pieces.
  have hparagraph : documentTree [.run false pieces .none]
      = .node (.group [.node (.paragraph (Part.treesAll 0 pieces))]) := rfl
  have hwithin := within_of_parse hparse
  rw [hparagraph] at hhtml hwithin
  rw [Html.renderTree_singleton, Html.renderTree_paragraph] at hhtml
  obtain ⟨content, hcontent, rfl⟩ := exists_of_map_eq_ok hhtml
  refine ⟨content, rfl, ?_⟩
  have hbytes : (Arg.inline (.run true pieces .none)).bytes
      = Bracket.square.opener :: (source ++ [Bracket.square.closer]) := by
    rw [Part.bytesAll_singleton] at hsource
    rw [← hsource]
    rfl
  have hcross : (Arg.inline (.run true pieces .none)).cross [] = some [] := by
    have hpieces : Part.crossAll [] pieces = some [] :=
      (Part.crossAll_singleton [] _).symm.trans hparts.brackets
    rw [Arg.cross, Part.cross, hpieces]
    rfl
  obtain ⟨⟨hstarts, hruns, _, hpieces⟩, _⟩ := hparts.fits
  rw [← hbytes]
  refine compile_call (a := .inline _ _) hbuiltin hform hkinds rfl
    ⟨rfl, startsRun_bracketed hstarts, hruns, fun hfalse => (nomatch hfalse), hpieces⟩ hcross rfl ?_
  rw [hbytes]
  show Html.renderTree _ (.node (.group [.node (.group _)])) = _
  rw [Html.renderTree_singleton]
  refine Html.renderTree_content _ _ .square hpieces (fun layer hlayer => ?_) hcontent
  -- What is below the run is below the paragraph.
  cases hlayer with
  | here => trivial
  | child hchild hlayer =>
    exact hwithin layer (.child (List.mem_singleton_self _) (.child hchild hlayer))

/-- An element tells what it is around. -/
theorem Html.element_injective {tag : String} {content other : Bytes}
    (h : Html.element tag content = Html.element tag other) : content = other :=
  List.append_cancel_right (List.append_cancel_left h)

/-- What a document that closes its brackets is compiled to does not depend on where it stands. In
the braces of `aside`, with a line feed after it, it gives all of its HTML. In the square brackets of
`b` a line that starts with a text gives what its paragraph has. -/
theorem compile_enclosed {source html : Bytes} {r : Reader} (hcompile : compile source = .ok html)
    (hrun : initial.run source = .ok r) (hopened : r.opened = []) :
    (source.getLast? ≠ some carriageReturn →
      compile (tilde :: (Utf8.encode "aside"
          ++ Bracket.curly.opener :: (source ++ [lineFeed, Bracket.curly.closer])))
        = .ok (Html.element "aside" html))
    ∧ ∀ first rest, source = first :: rest → first ≠ tilde → isBlank first = false →
      lineFeed ∉ source →
        (∃ content, html = Html.element "p" content)
        ∧ ∀ content, html = Html.element "p" content →
          compile (tilde :: (Utf8.encode "b"
              ++ Bracket.square.opener :: (source ++ [Bracket.square.closer])))
            = .ok (Html.element "strong" content) := by
  let aside : Builtin := ⟨"aside", "aside", [⟨"content", .block⟩], .enclosed⟩
  let bold : Builtin := ⟨"b", "strong", [⟨"text", .inline⟩], .enclosed⟩
  have haside : aside ∈ Builtin.all := by decide
  have hbold : bold ∈ Builtin.all := by decide
  constructor
  · intro hreturn
    have hblock := compile_braces haside rfl rfl hcompile hrun hopened hreturn
    exact hblock
  · intro first rest hfirst htilde hblank hline
    obtain ⟨content, rfl, hcontent⟩ :=
      compile_brackets hbold rfl rfl hcompile hrun hopened hfirst htilde hblank hline
    refine ⟨⟨content, rfl⟩, fun other hother => ?_⟩
    -- The paragraph has but one content, so it is the one that was found.
    rw [← Html.element_injective hother]
    exact hcontent

/-- The line `(x)` is a paragraph by itself, and may stand in either command. -/
theorem compile_enclosed_sample :
    ∃ r html content, compile [0x28, 0x78, 0x29] = .ok html
      ∧ initial.run [0x28, 0x78, 0x29] = .ok r ∧ r.opened = []
      ∧ html = Html.element "p" content
      ∧ compile (tilde :: (Utf8.encode "aside"
          ++ Bracket.curly.opener :: [0x28, 0x78, 0x29, lineFeed, Bracket.curly.closer]))
        = .ok (Html.element "aside" html)
      ∧ compile (tilde :: (Utf8.encode "b"
          ++ Bracket.square.opener :: [0x28, 0x78, 0x29, Bracket.square.closer]))
        = .ok (Html.element "strong" content) := by
  obtain ⟨html, hcompile⟩ : ∃ html, compile [0x28, 0x78, 0x29] = .ok html := ⟨_, rfl⟩
  obtain ⟨r, hrun, hopened⟩ : ∃ r, initial.run [0x28, 0x78, 0x29] = .ok r ∧ r.opened = [] :=
    ⟨_, rfl, rfl⟩
  obtain ⟨haside, hbold⟩ := compile_enclosed hcompile hrun hopened
  obtain ⟨⟨content, hcontent⟩, hstrong⟩ := hbold 0x28 _ rfl (by decide) rfl (by decide)
  exact ⟨r, html, content, hcompile, hrun, hopened, hcontent, haside (by decide),
    hstrong content hcontent⟩

end TildeMarkup
