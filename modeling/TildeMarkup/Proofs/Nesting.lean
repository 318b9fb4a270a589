import TildeMarkup.Proofs.Html.Pieces
import TildeMarkup.Proofs.Rendering
import TildeMarkup.Proofs.Spelling.Typing

/-!
# Blocks never stand inside of runs

A parsed tree is well typed, and what is rendered for it keeps to that: no element of a block is opened
inside of a paragraph, or inside of the element of an argument in square brackets
(`parse_wellTyped`).

`Nested` says this of the pieces of the output. It is put together as they are: piece after piece, and
an element around its content.
-/

namespace TildeMarkup

namespace Html

open TildeMarkup.Tree

/-- The elements that are open after a piece, the innermost first. An end tag has to be that of the
innermost one. -/
def Piece.step (stack : List String) : Piece → Option (List String)
  | opens tag _ => some (tag :: stack)
  | closes tag => if stack.head? = some tag then some stack.tail else none
  | raw _ => some stack

/-- The elements that are open after some pieces, or nothing if an end tag does not belong to the
innermost one. -/
def Piece.opened (stack : List String) (pieces : List Piece) : Option (List String) :=
  pieces.foldlM step stack

/-- The elements of blocks: a paragraph, and the commands that take an argument in braces. -/
def blockTags : List String :=
  ["p", "aside", "blockquote"]

/-- The elements that hold a run: a paragraph, and the commands that take an argument in square
brackets. -/
def runTags : List String :=
  "p" :: (Builtin.all.filter fun builtin =>
    builtin.params.any fun param => param.kind = .inline).map Builtin.tag

example : runTags = ["p", "em", "strong", "sup", "a", "h2", "h3"] := by decide

/-- No element that holds a run is open, so that of a block may be opened. -/
def Clear (stack : List String) : Prop :=
  ∀ outer ∈ stack, outer ∉ runTags

/-- Every element is closed by its own tag, and where that of a block is opened, none that holds a run
is open. -/
structure Nested (stack : List String) (pieces : List Piece) : Prop where
  closed : Piece.opened stack pieces = some stack
  clear : ∀ front tag attributes back, pieces = front ++ .opens tag attributes :: back →
    tag ∈ blockTags → ∃ outside, Piece.opened stack front = some outside ∧ Clear outside

/-- Over a seam, what has been opened in the first part is still open. -/
theorem Piece.opened_append (stack : List String) (front back : List Piece) :
    opened stack (front ++ back) = (opened stack front).bind fun next => opened next back := by
  unfold opened
  rw [List.foldlM_append]
  rfl

theorem Piece.opened_cons (stack : List String) (piece : Piece) (rest : List Piece) :
    opened stack (piece :: rest) = (step stack piece).bind fun next => opened next rest := by
  unfold opened
  rw [List.foldlM_cons]
  rfl

namespace Nested

variable {stack : List String}

theorem nil (stack : List String) : Nested stack [] where
  closed := rfl
  clear front tag attributes back h := by
    cases front <;> cases h

theorem raw (stack : List String) (bytes : Bytes) : Nested stack [.raw bytes] where
  closed := rfl
  clear front tag attributes back h := by
    rcases front with _ | ⟨_, _ | _⟩ <;> cases h

/-- Pieces behind each other: the first leave the stack as it was, so the others start from the same. -/
theorem append {pieces more : List Piece} (h : Nested stack pieces) (hmore : Nested stack more) :
    Nested stack (pieces ++ more) where
  closed := by
    rw [Piece.opened_append, h.closed, Option.bind_some, hmore.closed]
  clear front tag attributes back heq htag := by
    -- the tag is opened among the first pieces or among the others
    rcases List.append_eq_append_iff.1 heq with ⟨lead, rfl, hsplit⟩ | ⟨lead, hsplit, htail⟩
    · rw [Piece.opened_append, h.closed, Option.bind_some]
      exact hmore.clear lead tag attributes back hsplit htag
    · cases lead with
      | nil =>
        rw [List.append_nil] at hsplit
        have houter := hmore.clear [] tag attributes back htail.symm htag
        rw [← hsplit, h.closed]
        exact houter
      | cons piece rest =>
        injection htail with hpiece _
        rw [← hpiece] at hsplit
        exact h.clear front tag attributes rest hsplit htag

/-- Contents one after the other are nested where each of them is. -/
theorem flatten {contents : List (List Piece)} (h : ∀ content ∈ contents, Nested stack content) :
    Nested stack contents.flatten := by
  induction contents with
  | nil => exact .nil stack
  | cons content rest ih =>
    rw [List.flatten_cons]
    exact (h content (List.mem_cons_self ..)).append
      (ih fun other hother => h other (List.mem_cons_of_mem content hother))

/-- An element may be opened where it is none of a block, or where no run is open. -/
theorem enclose {tag : String} {content : List Piece} (h : Nested (tag :: stack) content)
    (htag : tag ∉ blockTags ∨ Clear stack) (attributes : Bytes) :
    Nested stack (enclose tag attributes content) where
  closed := by
    have hcontent : Piece.opened (tag :: stack) content = some (tag :: stack) := h.closed
    rw [Html.enclose, Piece.opened_cons, Piece.step, Option.bind_some, Piece.opened_append, hcontent,
      Option.bind_some, Piece.opened_cons, Piece.step, if_pos List.head?_cons]
    rfl
  clear front other attributes' back heq hother := by
    cases front with
    | nil =>
      injection heq with hpiece _
      injection hpiece with hsame _
      rw [hsame] at htag
      exact ⟨stack, rfl, htag.resolve_left fun hnot => hnot hother⟩
    | cons first rest =>
      injection heq with hfirst hrest
      -- the last piece is an end tag, so the start tag is one of the content
      rcases List.append_eq_append_iff.1 hrest with ⟨lead, rfl, hsplit⟩ | ⟨lead, hsplit, htail⟩
      · rcases lead with _ | ⟨_, _ | _⟩ <;> cases hsplit
      · cases lead with
        | nil => cases htail
        | cons piece more =>
          injection htail with hpiece _
          rw [← hpiece] at hsplit
          rw [← hfirst, Piece.opened_cons, Piece.step, Option.bind_some]
          exact h.clear rest other attributes' more hsplit hother

end Nested

/-! ## The pieces of a tree -/

/-- The commands whose element is one of a block are those that take an argument in braces. -/
theorem mem_blockTags {builtin : Builtin} (h : builtin ∈ Builtin.all)
    (htag : builtin.tag ∈ blockTags) :
    builtin.params.map Parameter.kind = [.block] ∧ builtin.tag ∉ runTags := by
  revert builtin
  decide

/-- A command whose element is none of a block takes no argument in braces. -/
theorem not_mem_blockTags {builtin : Builtin} (h : builtin ∈ Builtin.all)
    (htag : builtin.tag ∉ blockTags) : .block ∉ builtin.params.map Parameter.kind := by
  revert builtin
  decide

/-- A listing opens nothing but elements of its own lines. -/
theorem nested_listing (stack : List String) {tag : String} (htag : tag ∉ blockTags ∨ Clear stack)
    (language file text : String) : Nested stack (pieceListing tag language file text) := by
  apply Nested.enclose _ htag
  apply Nested.append
  · exact (Nested.raw _ _).enclose (.inl (by decide)) _
  · apply Nested.flatten
    intro content hcontent
    obtain ⟨line, _, rfl⟩ := List.mem_map.1 hcontent
    exact (Nested.raw _ _).enclose (.inl (by decide)) _

/-- The pieces of a command are nested if those of its arguments are, inside of its element. -/
theorem nested_call {source : Bytes} {builtin : Builtin} {args : List (Argument (List Piece))}
    {stack : List String} (htag : builtin.tag ∉ blockTags ∨ Clear stack)
    (hargs : ∀ arg ∈ args, ∀ content ∈ arg.children, Nested (builtin.tag :: stack) content) :
    Nested stack (pieceCall source builtin args) := by
  unfold pieceCall
  split
  · next arg _ => exact (Nested.flatten (hargs arg (List.mem_singleton_self arg))).enclose htag _
  · exact (Nested.raw _ _).enclose htag _
  · next content span _ _ =>
    have hcontent := hargs (.inline content span) (List.mem_cons_self ..) content
      (List.mem_singleton_self content)
    exact hcontent.enclose htag _
  · exact nested_listing stack htag ..
  · exact .nil stack

/-- The tree may stand where these elements are open: anywhere if it is part of a run, or holds one by
itself, and outside of runs if it is a block. -/
def Sits (stack : List String) (tree : Tree) : Prop :=
  (tree.Blockless ∧ (tree.isText = true ∨ tree.isCommand = true
    ∨ ∃ children, tree = .node (.group children) ∧ AreRun children))
  ∨ Clear stack ∧ (tree.isParagraph = true ∨ tree.isCommand = true)

/-- The nodes of a run may stand wherever the run may. -/
theorem sits_of_areRun {children : List Tree} (h : AreRun children) {child : Tree}
    (hchild : child ∈ children) (hblockless : child.Blockless) (stack : List String) :
    Sits stack child := by
  refine .inl ⟨hblockless, ?_⟩
  rcases h.kinds child hchild with htext | hcommand
  · exact .inl htext
  · exact .inr (.inl hcommand)

section WellTyped

variable {source : Bytes} {root : Tree}

/-- What a valid command holds may stand inside of its element. -/
theorem sits_of_argument (hwell : WellTyped source root) {name : Span}
    {args : List (Argument Tree)} (hhas : root.Has (.command name args)) {builtin : Builtin}
    (hbuiltin : builtin ∈ Builtin.all)
    (hkinds : args.map Argument.kind = builtin.params.map Parameter.kind) {stack : List String}
    (hclear : builtin.tag ∈ blockTags → Clear stack) {arg : Argument Tree} (harg : arg ∈ args)
    {child : Tree} (hchild : child ∈ arg.children) : Sits (builtin.tag :: stack) child := by
  cases arg with
  -- What is in square brackets is a run, which may stand anywhere.
  | inline found span =>
    cases List.mem_singleton.1 hchild
    refine .inl ⟨hwell.inlineBlockless name args child span hhas harg, .inr ?_⟩
    rcases hwell.inline name args child span hhas harg with hcommand | ⟨inner, hgroup, hrun, _⟩
    · exact .inl hcommand
    · exact .inr ⟨inner, hgroup, hrun⟩
  -- What is in braces are blocks: the element around them is one of a block, and so none of a run.
  | block children span =>
    have hkind : Kind.block ∈ builtin.params.map Parameter.kind := by
      rw [← hkinds]
      exact List.mem_map_of_mem harg
    have htag : builtin.tag ∈ blockTags := Classical.byContradiction fun hnot =>
      not_mem_blockTags hbuiltin hnot hkind
    refine .inr ⟨?_, hwell.block name args children span hhas harg child hchild⟩
    exact List.forall_mem_cons.2 ⟨(mem_blockTags hbuiltin htag).2, hclear htag⟩
  | _ => cases hchild

/-- The pieces of a tree are nested wherever it may stand. -/
theorem nested_pieces (hwell : WellTyped source root)
    (hvalid : ∀ name args, root.Has (.command name args) → ValidCall source name args) :
    ∀ tree : Tree, (∀ layer, tree.Has layer → root.Has layer) →
      ∀ stack, Sits stack tree → Nested stack (pieces source tree) := by
  refine Tree.induction fun layer ih hbelow stack hsits => ?_
  have hchildren {child : Tree} (hchild : child ∈ layer.children) {inside : List String}
      (hchildSits : Sits inside child) : Nested inside (pieces source child) :=
    ih child hchild (fun found hfound => hbelow found (.child hchild hfound)) inside hchildSits
  have hhas : root.Has layer := hbelow layer (.here layer)
  rw [pieces_node]
  cases layer with
  | text span => exact .raw stack _
  | group children =>
    -- A group that sits somewhere is that of a run.
    have hrun : (Tree.node (.group children)).Blockless ∧ AreRun children := by
      rcases hsits with ⟨hblockless, htext | hcommand | ⟨_, hgroup, hrun⟩⟩ | ⟨_, hpar | hcommand⟩
      · cases htext
      · cases hcommand
      · cases hgroup
        exact ⟨hblockless, hrun⟩
      · cases hpar
      · cases hcommand
    refine .flatten fun content hcontent => ?_
    obtain ⟨child, hchild, rfl⟩ := List.mem_map.1 hcontent
    exact hchildren hchild (sits_of_areRun hrun.2 hchild (hrun.1.child hchild) stack)
  | paragraph children =>
    have hclear : Clear stack := by
      rcases hsits with ⟨_, htext | hcommand | ⟨_, hgroup, _⟩⟩ | ⟨hclear, _⟩
      · cases htext
      · cases hcommand
      · cases hgroup
      · exact hclear
    have hrun := (hwell.paragraph children hhas).1
    have hblockless := hwell.paragraphBlockless children hhas
    refine Nested.enclose (.flatten fun content hcontent => ?_) (.inr hclear) []
    obtain ⟨child, hchild, rfl⟩ := List.mem_map.1 hcontent
    exact hchildren hchild (sits_of_areRun hrun hchild (hblockless.child hchild) _)
  | command name args =>
    obtain ⟨builtin, hfind, hkinds, _⟩ := hvalid name args hhas
    have hbuiltin := Builtin.mem_all_of_find? hfind
    -- a command whose element is one of a block has an argument in braces, so it stands in no run
    have hclear (htag : builtin.tag ∈ blockTags) : Clear stack := by
      rcases hsits with ⟨hblockless, _⟩ | ⟨hclear, _⟩
      · rw [(mem_blockTags hbuiltin htag).1] at hkinds
        obtain ⟨arg, rfl, hkind⟩ := List.map_eq_singleton_iff.1 hkinds
        exact absurd hkind (hblockless name _ (.here _) arg (List.mem_singleton_self arg))
      · exact hclear
    simp only [Node.map, pieceNode, hfind]
    have hplace : builtin.tag ∉ blockTags ∨ Clear stack :=
      Classical.or_iff_not_imp_left.2 fun htag => hclear (Classical.not_not.1 htag)
    refine nested_call hplace ?_
    intro arg harg content hcontent
    obtain ⟨spelled, hspelled, rfl⟩ := List.mem_map.1 harg
    rw [Argument.children_map] at hcontent
    obtain ⟨child, hchild, rfl⟩ := List.mem_map.1 hcontent
    exact hchildren (List.mem_flatMap_of_mem hspelled hchild)
      (sits_of_argument hwell hhas hbuiltin hkinds hclear hspelled hchild)

/-- The pieces of a document are nested, with nothing open around it. -/
theorem nested_document (hwell : WellTyped source root)
    (hvalid : ∀ name args, root.Has (.command name args) → ValidCall source name args) :
    Nested [] (pieces source root) := by
  obtain ⟨children, rfl, hblocks⟩ := hwell.root
  rw [pieces_node]
  refine .flatten fun content hcontent => ?_
  obtain ⟨child, hchild, rfl⟩ := List.mem_map.1 hcontent
  have hclear : Clear [] := fun _ hmem => absurd hmem List.not_mem_nil
  exact nested_pieces hwell hvalid child (fun layer hlayer => .child hchild hlayer) []
    (.inr ⟨hclear, hblocks child hchild⟩)

end WellTyped

end Html

open Spelling

/-- What is rendered of a document with valid commands is its pieces, and they are nested. -/
theorem Html.nested_of_render {source html : Bytes} {tree : Tree} (hwell : WellTyped source tree)
    (hvalid : ∀ name args, tree.Has (.command name args) → ValidCall source name args)
    (hhtml : Html.render source tree.toArena = .ok html) :
    html = Html.Piece.bytesAll (Html.pieces source tree) ∧ Html.Nested [] (Html.pieces source tree) := by
  refine ⟨?_, Html.nested_document hwell hvalid⟩
  rw [Html.render, Arena.walk_toArena] at hhtml
  exact Html.eq_pieces_of_renderTree hhtml

/-- The tree of a parsed source is well typed, and no element of a block is opened inside of a
paragraph or of the element of an argument in square brackets. -/
theorem parse_wellTyped {source : Bytes} {arena : Arena} (h : parse source = .ok arena) :
    ∃ tree, arena.tree = .ok tree ∧ WellTyped source tree
      ∧ ∀ html, Html.render source arena = .ok html →
        html = Html.Piece.bytesAll (Html.pieces source tree)
          ∧ Html.Nested [] (Html.pieces source tree) := by
  have hvalid := exists_render_iff h
  obtain ⟨parts, opened, hparts, rfl, rfl⟩ := spelled_of_parse h
  have hwell := wellTyped_documentTree hparts
  refine ⟨_, Arena.tree_toArena _, hwell, fun html hhtml => ?_⟩
  exact Html.nested_of_render hwell (fun name args => (hvalid.1 ⟨html, hhtml⟩).validCall) hhtml

/-- The text `x ` and the command `~i[y]` in one line, `~aside{z}` in the next. -/
def nestingSample : Bytes :=
  [0x78, 0x20, tilde, 0x69, 0x5b, 0x79, 0x5d, lineFeed, tilde, 0x61, 0x73, 0x69, 0x64, 0x65, 0x7b,
    0x7a, 0x7d]

/-- Its arena: a paragraph of a text and a command, and a command around a paragraph. -/
def nestingSampleArena : Arena where
  nodes := #[.text ⟨0, 2⟩, .text ⟨5, 6⟩, .group [1], .command ⟨3, 4⟩ [.inline 2 ⟨4, 7⟩],
    .paragraph [0, 3], .text ⟨15, 16⟩, .paragraph [5], .command ⟨9, 14⟩ [.block [6] ⟨14, 17⟩],
    .group [4, 7]]
  root := 8

theorem parse_wellTyped_sample :
    parse nestingSample = .ok nestingSampleArena
      ∧ (∃ html, Html.render nestingSample nestingSampleArena = .ok html)
      ∧ ∃ tree, nestingSampleArena.tree = .ok tree ∧ WellTyped nestingSample tree
        ∧ ∀ html, Html.render nestingSample nestingSampleArena = .ok html →
          html = Html.Piece.bytesAll (Html.pieces nestingSample tree)
            ∧ Html.Nested [] (Html.pieces nestingSample tree) := by
  let inside : Node Tree := .command ⟨3, 4⟩ [.inline (.node (.group [.node (.text ⟨5, 6⟩)])) ⟨4, 7⟩]
  let line : Node Tree := .paragraph [.node (.text ⟨0, 2⟩), .node inside]
  let command : Node Tree :=
    .command ⟨9, 14⟩ [.block [.node (.paragraph [.node (.text ⟨15, 16⟩)])] ⟨14, 17⟩]
  have htree : Tree.parse nestingSample = .ok (.node (.group [.node line, .node command])) := rfl
  have h : parse nestingSample = .ok nestingSampleArena := by
    rw [parse, htree]
    rfl
  exact ⟨h, ⟨_, rfl⟩, parse_wellTyped h⟩

end TildeMarkup
