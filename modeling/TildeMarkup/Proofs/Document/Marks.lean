import TildeMarkup.Proofs.Document.Numbering

/-!
# The marks of a tree

A mark is a span of a tree with what it stands for: a text, the name of a command, or an argument.
`Tree.marks` lists them in document order, an argument in brackets in front of what it holds. The
leaves are the marks that hold no others (`Tree.leaves`).

`Tree.Has` says that a layer is one of a tree, and `Ascending` that spans follow each other between
two offsets.
-/

namespace TildeMarkup

/-- What a span of a tree stands for: a text, the name of a command, or an argument of some kind. -/
inductive Mark where
  | text (span : Span)
  | name (span : Span)
  | argument (kind : Kind) (span : Span)
  deriving DecidableEq, Repr

namespace Mark

/-- The span, without what it stands for. -/
def span : Mark → Span
  | text span => span
  | name span => span
  | argument _ span => span

/-- Arguments in brackets hold marks, all other marks do not. -/
def isLeaf : Mark → Bool
  | argument .block _ => false
  | argument .inline _ => false
  | _ => true

/-- The marks of an argument, from those of what it holds. Its own mark comes first. -/
def ofArgument : Argument (List Mark) → List Mark
  | .block children span => argument .block span :: children.flatten
  | .inline child span => argument .inline span :: child
  | .ident span => [argument .ident span]
  | .string span => [argument .string span]

/-- The marks of a layer, from those of its children. The nodes around runs and blocks have no spans. -/
def ofNode : Node (List Mark) → List Mark
  | .group children => children.flatten
  | .paragraph children => children.flatten
  | .text span => [text span]
  | .command span args => name span :: args.flatMap ofArgument

/-- The spans of the leaves among some marks, in their order. -/
def leaves (marks : List Mark) : List Span :=
  (marks.filter isLeaf).map span

theorem leaves_append (front back : List Mark) : leaves (front ++ back) = leaves front ++ leaves back := by
  rw [leaves, List.filter_append, List.map_append]
  rfl

theorem mem_leaves {marks : List Mark} {mark : Mark} (h : mark ∈ marks)
    (hleaf : mark.isLeaf = true) : mark.span ∈ leaves marks :=
  List.mem_map_of_mem (List.mem_filter.2 ⟨h, hleaf⟩)

end Mark

/-- The marks of a tree in document order. -/
def Tree.marks : Tree → List Mark :=
  Tree.fold Mark.ofNode

/-- The marks of an argument: its own, and those of what it holds. -/
def Argument.marks (arg : Argument Tree) : List Mark :=
  Mark.ofArgument (arg.map Tree.marks)

/-- The bracket that an argument stands in. Identifiers and strings stand in none. -/
def Argument.bracket? {α : Type} : Argument α → Option Bracket
  | .block .. => some .curly
  | .inline .. => some .square
  | .ident _ => none
  | .string _ => none

/-- The marks of what an argument holds. -/
def Argument.inner (arg : Argument Tree) : List Mark :=
  arg.children.flatMap Tree.marks

/-- The spans of texts, names, identifiers and strings, in document order. -/
def Tree.leaves (tree : Tree) : List Span :=
  Mark.leaves tree.marks

theorem Tree.marks_node (layer : Node Tree) :
    (Tree.node layer).marks = Mark.ofNode (layer.map Tree.marks) :=
  Tree.fold_node Mark.ofNode layer

theorem Tree.marks_group (children : List Tree) :
    (Tree.node (.group children)).marks = children.flatMap Tree.marks := by
  rw [marks_node]
  rfl

theorem Tree.marks_paragraph (children : List Tree) :
    (Tree.node (.paragraph children)).marks = children.flatMap Tree.marks := by
  rw [marks_node]
  rfl

theorem Tree.marks_text (span : Span) : (Tree.node (.text span)).marks = [.text span] := by
  rw [marks_node]
  rfl

theorem Tree.marks_command (name : Span) (args : List (Argument Tree)) :
    (Tree.node (.command name args)).marks = .name name :: args.flatMap Argument.marks := by
  rw [marks_node, Node.map, Mark.ofNode, List.flatMap_map]
  rfl

theorem Argument.marks_block (children : List Tree) (span : Span) :
    (Argument.block children span).marks = .argument .block span :: children.flatMap Tree.marks :=
  rfl

theorem Argument.marks_inline (child : Tree) (span : Span) :
    (Argument.inline child span).marks = .argument .inline span :: child.marks :=
  rfl

/-- An argument is among its own marks. -/
theorem Argument.mem_marks (arg : Argument Tree) : .argument arg.kind arg.span ∈ arg.marks := by
  cases arg <;> exact List.mem_cons_self ..

/-- An argument that stands in no bracket is a leaf. -/
theorem Argument.isLeaf_of_bracket? {arg : Argument Tree} (h : arg.bracket? = none) :
    (Mark.argument arg.kind arg.span).isLeaf = true := by
  cases arg with
  | block => cases h
  | inline => cases h
  | _ => rfl

theorem Argument.isLeaf_eq_false_of_bracket? {arg : Argument Tree} {kind : Bracket}
    (h : arg.bracket? = some kind) : (Mark.argument arg.kind arg.span).isLeaf = false := by
  cases arg with
  | block => rfl
  | inline => rfl
  | _ => cases h

/-- An argument in brackets has its own mark, and then those of what it holds. -/
theorem Argument.marks_of_bracket? {arg : Argument Tree} {kind : Bracket}
    (h : arg.bracket? = some kind) : arg.marks = .argument arg.kind arg.span :: arg.inner := by
  cases arg with
  | block => rfl
  | inline child span =>
    rw [marks_inline, inner, children, List.flatMap_cons, List.flatMap_nil, List.append_nil]
    rfl
  | _ => cases h

/-! ## The layers of a tree -/

/-- The layer is that of the tree, or of a tree below it. -/
inductive Tree.Has : Tree → Node Tree → Prop where
  | here (layer : Node Tree) : Tree.Has (.node layer) layer
  | child {layer found : Node Tree} {child : Tree} (hchild : child ∈ layer.children)
      (h : Tree.Has child found) : Tree.Has (.node layer) found

/-- What a part of a tree has, the tree has. -/
theorem Tree.Has.trans {tree : Tree} {layer found : Node Tree} (h : tree.Has layer)
    (hfound : (Tree.node layer).Has found) : tree.Has found := by
  induction h with
  | here => exact hfound
  | child hchild _ ih => exact .child hchild (ih hfound)

/-- The marks of a tree below are among those of the tree. -/
theorem Tree.marks_child {layer : Node Tree} {child : Tree} {mark : Mark}
    (hchild : child ∈ layer.children) (hmark : mark ∈ child.marks) :
    mark ∈ (Tree.node layer).marks := by
  cases layer with
  | group children =>
    rw [marks_group]
    exact List.mem_flatMap_of_mem hchild hmark
  | paragraph children =>
    rw [marks_paragraph]
    exact List.mem_flatMap_of_mem hchild hmark
  | text span => cases hchild
  -- The child stands in an argument, which is marked in front of it.
  | command name args =>
    rw [marks_command]
    obtain ⟨arg, harg, hchild⟩ := List.mem_flatMap.1 hchild
    refine List.mem_cons_of_mem _ (List.mem_flatMap_of_mem harg ?_)
    cases arg with
    | block children span => exact List.mem_cons_of_mem _ (List.mem_flatMap_of_mem hchild hmark)
    | inline found span =>
      cases List.mem_singleton.1 hchild
      exact List.mem_cons_of_mem _ hmark
    | _ => cases hchild

/-- The marks of a layer of a tree are among those of the tree. -/
theorem Tree.Has.marks {tree : Tree} {layer : Node Tree} (h : tree.Has layer) {mark : Mark}
    (hmark : mark ∈ (Tree.node layer).marks) : mark ∈ tree.marks := by
  induction h with
  | here => exact hmark
  -- Each layer on the way up has the marks of the one below.
  | child hchild _ ih => exact marks_child hchild (ih hmark)

/-- The name of a command is marked wherever the command is in the tree. -/
theorem Tree.Has.marks_name {tree : Tree} {name : Span} {args : List (Argument Tree)}
    (h : tree.Has (.command name args)) : .name name ∈ tree.marks := by
  refine h.marks ?_
  rw [marks_command]
  exact List.mem_cons_self ..

/-- The marks of an argument are among those of the tree. -/
theorem Tree.Has.marks_argument {tree : Tree} {name : Span} {args : List (Argument Tree)}
    {arg : Argument Tree} {mark : Mark} (h : tree.Has (.command name args)) (harg : arg ∈ args)
    (hmark : mark ∈ arg.marks) : mark ∈ tree.marks := by
  refine h.marks ?_
  rw [marks_command]
  exact List.mem_cons_of_mem _ (List.mem_flatMap_of_mem harg hmark)

/-! ## Spans one after the other -/

/-- The spans follow each other between two offsets, without overlapping; there may be bytes in
between. -/
inductive Ascending : Nat → List Span → Nat → Prop where
  | nil {lo hi : Nat} (h : lo ≤ hi) : Ascending lo [] hi
  | cons {lo hi : Nat} {span : Span} {rest : List Span} (hlo : lo ≤ span.start)
      (hspan : span.start ≤ span.stop) (hrest : Ascending span.stop rest hi) :
      Ascending lo (span :: rest) hi

namespace Ascending

variable {lo mid hi : Nat} {spans more : List Span}

/-- The offsets are in order, even if there are no spans. -/
theorem le (h : Ascending lo spans hi) : lo ≤ hi := by
  induction h with
  | nil h => exact h
  | cons hlo hspan _ ih => omega

theorem weaken {lo' : Nat} (h : Ascending lo spans hi) (hlo' : lo' ≤ lo) : Ascending lo' spans hi := by
  cases h with
  | nil h => exact .nil (by omega)
  | cons hlo hspan hrest => exact .cons (by omega) hspan hrest

/-- Spans up to an offset, and spans from there on. -/
theorem append (h : Ascending lo spans mid) (hmore : Ascending mid more hi) :
    Ascending lo (spans ++ more) hi := by
  induction h with
  | nil h => exact hmore.weaken h
  | cons hlo hspan _ ih => exact .cons hlo hspan (ih hmore)

theorem singleton {span : Span} (hlo : lo ≤ span.start) (hspan : span.start ≤ span.stop)
    (hhi : span.stop ≤ hi) : Ascending lo [span] hi :=
  .cons hlo hspan (.nil hhi)

/-- Every one of the spans lies between the two offsets. -/
theorem bounds (h : Ascending lo spans hi) {span : Span} (hspan : span ∈ spans) :
    lo ≤ span.start ∧ span.start ≤ span.stop ∧ span.stop ≤ hi := by
  induction h with
  | nil => cases hspan
  | cons hlo hle hrest ih =>
    rcases List.mem_cons.1 hspan with rfl | hspan
    · exact ⟨hlo, hle, hrest.le⟩
    · obtain ⟨hstart, hstop, hhi⟩ := ih hspan
      exact ⟨by omega, hstop, hhi⟩

/-- Each span ends where the next one starts, or before. -/
theorem pairwise (h : Ascending lo spans hi) :
    spans.Pairwise fun a b => a.stop ≤ b.start := by
  induction h with
  | nil => exact .nil
  | cons _ _ hrest ih => exact .cons (fun span hspan => (hrest.bounds hspan).1) ih

end Ascending

/-! ## The tree of an arena -/

/-- The tree of the document in an arena, found by a walk that checks nothing and keeps every node. -/
def Arena.tree (arena : Arena) : Except Failure Tree :=
  arena.walk ⟨fun _ => .ok (), Tree.node⟩

theorem Node.mapM_ok {α : Type} (node : Node α) :
    node.mapM (fun a => (.ok a : Except Failure α)) = .ok node :=
  (mapM_pure id node).trans (congrArg Except.ok (map_eq_self fun _ _ => rfl))

/-- The arena of a tree holds that tree. -/
theorem Arena.tree_toArena (tree : Tree) : tree.toArena.tree = .ok tree := by
  rw [Arena.tree, walk_toArena]
  refine Tree.induction (P := fun tree => tree.walk ⟨fun _ => .ok (), Tree.node⟩ = .ok tree)
    (fun layer ih => ?_) tree
  rw [Tree.walk_node, Node.mapM_congr ih, Node.mapM_ok]
  rfl

end TildeMarkup
