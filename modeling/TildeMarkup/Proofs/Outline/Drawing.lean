import Mathlib.Data.List.Perm.Basic
import TildeMarkup.Proofs.Document.Postorder
import TildeMarkup.Proofs.Outline.Figure
import TildeMarkup.Proofs.Outline.Items

/-!
# The drawing of a document

The drawing of a document has an item for every node and every argument, with what the item stands for: a
node has its arguments below it, or else its children, and an argument has its nodes below it
(`Arena.drawing`). An outline lists the drawing (`Arena.exists_figureAt`), and the drawing stands for the
nodes that a walk comes back from, and for their arguments (`Arena.perm_origins`).
-/

namespace TildeMarkup

/-- Where an action on a list succeeds, it does so on every part. -/
theorem exists_of_mapM_eq_some {α β : Type} [Inhabited β] {f : α → Option β} {l : List α} {done : List β}
    (h : l.mapM f = some done) : ∃ g : α → β, (∀ a ∈ l, f a = some (g a)) ∧ done = l.map g := by
  -- The value of each thing, where it has one; a default stands in for the things that are not in the
  -- list.
  have hall : ∀ a ∈ l, f a = some ((f a).getD default) := by
    induction l generalizing done with
    | nil => nofun
    | cons a rest ih =>
      rw [List.mapM_cons] at h
      obtain ⟨b, hb, hrest⟩ := Option.bind_eq_some_iff.1 h
      obtain ⟨_, hbelow, _⟩ := Option.bind_eq_some_iff.1 hrest
      exact List.forall_mem_cons.2 ⟨by rw [hb, Option.getD_some], ih hbelow⟩
  refine ⟨fun a => (f a).getD default, hall, Option.some.inj (h.symm.trans ?_)⟩
  rw [mapM_congr_mem hall]
  exact List.mapM_pure

namespace Outline

/-- What an item stands for: a node, or one of its arguments. -/
inductive Origin where
  | node (id : Nat)
  | argument (id index : Nat)
  deriving DecidableEq

/-- The number of the node, or of the node whose argument it is. -/
def Origin.holder : Origin → Nat
  | node id => id
  | argument id _ => id

/-- Items with what they stand for, as they hang below each other. -/
abbrev Drawing := Figure (Origin × Item)

instance : Inhabited Drawing := ⟨.node (.node 0, .group) []⟩

/-- What the items of a drawing stand for, in pre-order. -/
def origins (figure : Drawing) : List Origin :=
  figure.items.map Prod.fst

variable {α β : Type}

/-- The characters that a span covers, as they are read from its bytes. -/
def shown (source : Bytes) (span : Span) : List Char :=
  Utf8.decodeChars (span.slice source)

/-- The item of an argument: its span, and its characters if it is a leaf. -/
def argumentItem (source : Bytes) : Argument α → Item
  | .block _ span => .block span
  | .inline _ span => .inline span
  | .ident span => .ident (shown source span) span
  | .string span => .string (shown source span) span

/-- The item of a node: its characters if it is a text, and its name if it is a command. -/
def nodeItem (source : Bytes) : Node α → Item
  | .group _ => .group
  | .paragraph _ => .paragraph
  | .text span => .text (shown source span)
  | .command name _ => .command (commandName source name)

/-- The drawing of an argument, from those of its nodes. -/
def argumentFigure (source : Bytes) (id index : Nat) (arg : Argument Drawing) : Drawing :=
  .node (.argument id index, argumentItem source arg) arg.children

/-- What stands below a node: its arguments, or else its children. -/
def figuresBelow (source : Bytes) (id : Nat) : Node Drawing → List Drawing
  | .command _ args => args.zipIdx.map fun (arg, index) => argumentFigure source id index arg
  | layer => layer.children

/-- The drawing of a node, from those of its children. -/
def nodeFigure (source : Bytes) (id : Nat) (layer : Node Drawing) : Drawing :=
  .node (.node id, nodeItem source layer) (figuresBelow source id layer)

/-- What the items of the arguments of a node stand for. Other nodes than commands have none. -/
def argumentOrigins (id : Nat) : Node α → List Origin
  | .command _ args => (List.range args.length).map (Origin.argument id)
  | _ => []

@[simp] theorem argumentItem_map (source : Bytes) (f : α → β) (arg : Argument α) :
    argumentItem source (arg.map f) = argumentItem source arg := by
  cases arg <;> rfl

@[simp] theorem nodeItem_map (source : Bytes) (f : α → β) (layer : Node α) :
    nodeItem source (layer.map f) = nodeItem source layer := by
  cases layer <;> rfl

/-- A node comes first, and then what stands below it. -/
theorem origins_node (origin : Origin) (item : Item) (below : List Drawing) :
    origins (.node (origin, item) below) = origin :: below.flatMap origins := by
  rw [origins, Figure.items_node, List.map_cons, List.map_flatMap]
  rfl

/-! ## The lines of a drawing -/

/-- The lines that list a drawing, in pre-order and each with its depth. -/
def linesOf (figure : Drawing) : List Line :=
  figure.entries.map fun entry => ⟨entry.1, entry.2.2.label⟩

/-- What stands below an item is listed below its line. -/
theorem linesOf_node (origin : Origin) (item : Item) (below : List Drawing) :
    linesOf (.node (origin, item) below) = ⟨0, item.label⟩ :: (below.flatMap linesOf).map Line.below := by
  rw [linesOf, Figure.entries, Figure.entriesAt_node, List.map_cons, List.map_flatMap, List.map_flatMap]
  refine congrArg _ (List.flatMap_congr fun figure _ => ?_)
  rw [Figure.entriesAt_succ, List.map_map, linesOf, List.map_map]
  rfl

/-- An argument is listed as it is drawn. -/
theorem argumentLines_map (source : Bytes) (id index : Nat) (arg : Argument Drawing) :
    argumentLines source (arg.map linesOf) = linesOf (argumentFigure source id index arg) := by
  rw [argumentFigure, linesOf_node]
  cases arg <;> rfl

/-- A layer is listed as it is drawn, with its arguments counted on both sides. -/
theorem nodeLines_map (source : Bytes) (id : Nat) (layer : Node Drawing) :
    nodeLines source (layer.map linesOf) = linesOf (nodeFigure source id layer) := by
  rw [nodeFigure, linesOf_node]
  cases layer with
  | command name args =>
    -- The lines of an argument do not depend on its index, which only its figure keeps.
    have hargs : (args.map (Argument.map linesOf)).flatMap (argumentLines source)
        = (args.zipIdx.map fun (arg, index) => argumentFigure source id index arg).flatMap linesOf := by
      rw [List.flatMap_map, List.flatMap_map]
      conv => lhs; rw [← List.zipIdx_map_fst 0 args, List.flatMap_map]
      exact List.flatMap_congr fun entry _ => argumentLines_map source id entry.2 entry.1
    rw [Node.map, nodeLines, hargs]
    rfl
  | _ => rfl

/-! ## What a drawing stands for -/

theorem origins_argumentFigure (source : Bytes) (id index : Nat) (arg : Argument Drawing) :
    origins (argumentFigure source id index arg) = .argument id index :: arg.children.flatMap origins := by
  rw [argumentFigure, origins_node]

/-- Below a node stand its arguments, and what stands for its children. -/
theorem perm_figuresBelow (source : Bytes) (id : Nat) (layer : Node Drawing) :
    ((figuresBelow source id layer).flatMap origins).Perm
      (argumentOrigins id layer ++ layer.children.flatMap origins) := by
  cases layer with
  | command name args =>
    -- Of each entry there is an index and an argument. Listed apart, the indices come first.
    have hindices : (args.zipIdx.flatMap fun entry => [Origin.argument id entry.2])
        = (List.range args.length).map (Origin.argument id) := by
      rw [List.range_eq_range', ← List.zipIdx_map_snd 0 args, List.map_map, List.map_eq_flatMap]
      rfl
    have hchildren : (args.zipIdx.flatMap fun entry => entry.1.children.flatMap origins)
        = (args.flatMap Argument.children).flatMap origins := by
      rw [List.flatMap_assoc]
      conv => rhs; rw [← List.zipIdx_map_fst 0 args, List.flatMap_map]
    have hall : (figuresBelow source id (.command name args)).flatMap origins
        = args.zipIdx.flatMap fun entry =>
          [Origin.argument id entry.2] ++ entry.1.children.flatMap origins := by
      rw [figuresBelow, List.flatMap_map]
      exact List.flatMap_congr fun entry _ => origins_argumentFigure source id entry.2 entry.1
    rw [hall, argumentOrigins, Node.children, ← hindices, ← hchildren]
    exact (List.flatMap_append_perm _ _ _).symm
  | _ => exact .refl _

theorem argumentOrigins_map (id : Nat) (f : α → β) (layer : Node α) :
    argumentOrigins id (layer.map f) = argumentOrigins id layer := by
  cases layer with
  | command name args => rw [Node.map, argumentOrigins, argumentOrigins, List.length_map]
  | _ => rfl

end Outline

namespace Arena

open Outline

variable {source : Bytes} {arena : Arena} {steps id : Nat} {figure : Drawing}

/-- The drawing of what is below a number. It fails as a walk does. -/
def figureAt (source : Bytes) (arena : Arena) : (steps id : Nat) → Except Failure Drawing
  | 0, _ => .error .endless
  | steps + 1, id =>
    match arena.get? id with
    | none => .error .missingNode
    | some layer => return nodeFigure source id (← layer.mapM (arena.figureAt source steps))

/-- The drawing of the document in an arena. -/
def drawing (source : Bytes) (arena : Arena) : Except Failure Drawing :=
  arena.figureAt source (arena.nodes.size + 1) arena.root

theorem figureAt_succ {layer : Node Nat} (h : arena.get? id = some layer) (steps : Nat) :
    arena.figureAt source (steps + 1) id
      = do return nodeFigure source id (← layer.mapM (arena.figureAt source steps)) := by
  rw [figureAt, h]

theorem figureAt_eq_ok {layer : Node Nat} {below : Nat → Drawing} (hget : arena.get? id = some layer)
    (hbelow : ∀ child ∈ layer.children, arena.figureAt source steps child = .ok (below child)) :
    arena.figureAt source (steps + 1) id = .ok (nodeFigure source id (layer.map below)) := by
  have hlayer : layer.mapM (arena.figureAt source steps) = .ok (layer.map below) :=
    (Node.mapM_congr hbelow).trans (Node.mapM_pure below layer)
  rw [figureAt_succ hget, hlayer]
  rfl

/-- Where a node is drawn, its children are. -/
theorem exists_of_figureAt (h : arena.figureAt source (steps + 1) id = .ok figure) :
    ∃ (layer : Node Nat) (below : Nat → Drawing), arena.get? id = some layer
      ∧ (∀ child ∈ layer.children, arena.figureAt source steps child = .ok (below child))
      ∧ figure = nodeFigure source id (layer.map below) := by
  -- A figure is drawn only of a node that is there, and only if those below it are.
  cases hget : arena.get? id with
  | none =>
    rw [figureAt, hget] at h
    cases h
  | some layer =>
    rw [figureAt_succ hget] at h
    cases hlayer : layer.mapM (arena.figureAt source steps) with
    | error failure =>
      rw [hlayer] at h
      cases h
    | ok done =>
      rw [hlayer] at h
      obtain ⟨below, hbelow, rfl⟩ := Node.exists_of_mapM_eq_ok hlayer
      exact ⟨layer, below, rfl, hbelow, (Except.ok.inj h).symm⟩

/-- Where a walk comes to a result, it does so at the children. -/
theorem exists_of_walkAt {β : Type} [Inhabited β] {visit : Visit β} {result : β}
    (h : arena.walkAt visit (steps + 1) id = .ok result) :
    ∃ (layer : Node Nat) (below : Nat → β), arena.get? id = some layer
      ∧ (∀ child ∈ layer.children, arena.walkAt visit steps child = .ok (below child))
      ∧ result = visit.join (layer.map below) := by
  cases hget : arena.get? id with
  | none =>
    rw [walkAt, hget] at h
    cases h
  | some layer =>
    rw [walkAt_succ hget] at h
    cases hcheck : visit.check layer.shape with
    | error failure =>
      rw [hcheck] at h
      cases h
    | ok _ =>
      rw [hcheck] at h
      cases hlayer : layer.mapM (arena.walkAt visit steps) with
      | error failure =>
        rw [hlayer] at h
        cases h
      | ok done =>
        rw [hlayer] at h
        obtain ⟨below, hbelow, rfl⟩ := Node.exists_of_mapM_eq_ok hlayer
        exact ⟨layer, below, rfl, hbelow, (Except.ok.inj h).symm⟩

/-- Where an outline is made, it lists the drawing. -/
theorem exists_figureAt {lines : List Line} (h : arena.walkAt (visit source) steps id = .ok lines) :
    ∃ figure, arena.figureAt source steps id = .ok figure ∧ lines = linesOf figure := by
  induction steps generalizing id lines with
  | zero => cases h
  | succ steps ih =>
    obtain ⟨layer, listed, hget, hlisted, rfl⟩ := exists_of_walkAt h
    have hbelow (child : Nat) : ∃ figure, child ∈ layer.children →
        arena.figureAt source steps child = .ok figure ∧ listed child = linesOf figure := by
      by_cases hchild : child ∈ layer.children
      · obtain ⟨figure, hfigure⟩ := ih (hlisted child hchild)
        exact ⟨figure, fun _ => hfigure⟩
      · exact ⟨default, fun hmem => absurd hmem hchild⟩
    -- One figure for each child; what stands elsewhere gets any figure at all.
    choose below hbelow using hbelow
    have hlines : layer.map listed = (layer.map below).map linesOf := by
      rw [Node.map_map]
      exact Node.map_congr fun child hchild => (hbelow child hchild).2
    refine ⟨_, figureAt_eq_ok hget fun child hchild => (hbelow child hchild).1, ?_⟩
    rw [← nodeLines_map, ← hlines]
    rfl

/-! ## What is drawn -/

/-- The item is that of the node or the argument. -/
def Shows (arena : Arena) (source : Bytes) : Origin → Item → Prop
  | .node id, item => ∃ layer, arena.get? id = some layer ∧ item = nodeItem source layer
  | .argument id index, item => ∃ name args arg, arena.get? id = some (.command name args)
      ∧ args[index]? = some arg ∧ item = argumentItem source arg

/-- A drawing shows the nodes and the arguments as they are. -/
theorem shows_of_figureAt (h : arena.figureAt source steps id = .ok figure) {origin : Origin} {item : Item}
    (hitem : (origin, item) ∈ figure.items) : arena.Shows source origin item := by
  induction steps generalizing id figure with
  | zero => cases h
  | succ steps ih =>
    obtain ⟨layer, below, hget, hbelow, rfl⟩ := exists_of_figureAt h
    have hchild (child : Nat) (hchild : child ∈ layer.children)
        (hitem : (origin, item) ∈ (below child).items) : arena.Shows source origin item :=
      ih (hbelow child hchild) hitem
    rw [nodeFigure, Figure.items_node, nodeItem_map] at hitem
    -- The item is that of the node, or it stands in one of the figures below.
    rcases List.mem_cons.1 hitem with hitem | hitem
    · cases hitem
      exact ⟨layer, hget, rfl⟩
    · obtain ⟨figure, hfigure, hitem⟩ := List.mem_flatMap.1 hitem
      cases layer with
      | command name args =>
        obtain ⟨⟨arg, index⟩, hentry, rfl⟩ := List.mem_map.1 hfigure
        rw [List.mk_mem_zipIdx_iff_getElem?, List.getElem?_map] at hentry
        obtain ⟨arg, harg, rfl⟩ := Option.map_eq_some_iff.1 hentry
        -- The figure of an argument has the index in it at which the argument stands.
        change _ ∈ (argumentFigure source id index (arg.map below)).items at hitem
        rw [argumentFigure, Figure.items_node, argumentItem_map, Argument.children_map] at hitem
        rcases List.mem_cons.1 hitem with hitem | hitem
        · cases hitem
          exact ⟨name, args, arg, hget, harg, rfl⟩
        · obtain ⟨figure, hfigure, hitem⟩ := List.mem_flatMap.1 hitem
          obtain ⟨child, hmem, rfl⟩ := List.mem_map.1 hfigure
          exact hchild child (List.mem_flatMap_of_mem (List.mem_of_getElem? harg) hmem) hitem
      | text span => cases hfigure
      | _ =>
        obtain ⟨child, hmem, rfl⟩ := List.mem_map.1 hfigure
        exact hchild child hmem hitem

/-- What the items of a node and of its arguments stand for. -/
def originsOf (arena : Arena) (id : Nat) : List Origin :=
  .node id :: ((arena.get? id).map (argumentOrigins id)).getD []

theorem originsOf_eq {layer : Node Nat} (h : arena.get? id = some layer) :
    arena.originsOf id = .node id :: argumentOrigins id layer := by
  rw [originsOf, h]
  rfl

/-- A drawing has the nodes that a walk comes back from, and their arguments. -/
theorem perm_origins {ids : List Nat} (h : arena.figureAt source steps id = .ok figure)
    (hids : arena.postorderAt steps id = some ids) :
    (origins figure).Perm (ids.flatMap arena.originsOf) := by
  induction steps generalizing id figure ids with
  | zero => cases h
  | succ steps ih =>
    obtain ⟨layer, below, hget, hbelow, rfl⟩ := exists_of_figureAt h
    rw [postorderAt, hget, Option.bind_eq_bind, Option.bind_some] at hids
    obtain ⟨done, hdone, hids⟩ := Option.bind_eq_some_iff.1 hids
    obtain ⟨listed, hlisted, rfl⟩ := exists_of_mapM_eq_some hdone
    obtain rfl : (layer.children.map listed).flatten ++ [id] = ids := Option.some.inj hids
    -- By induction each child has its origins in the order of the figure. The post-order lists the node
    -- itself last, and the figure first.
    have hchildren : (layer.children.flatMap fun child => origins (below child)).Perm
        ((layer.children.map listed).flatten.flatMap arena.originsOf) := by
      rw [← List.flatMap_def, List.flatMap_assoc]
      exact List.Perm.flatMap_left _ fun child hchild => ih (hbelow child hchild) (hlisted child hchild)
    have hfigures := perm_figuresBelow source id (layer.map below)
    rw [argumentOrigins_map, Node.children_map, List.flatMap_map] at hfigures
    rw [nodeFigure, origins_node, List.flatMap_append, List.flatMap_singleton, originsOf_eq hget]
    refine ((hfigures.trans (hchildren.append_left _)).cons _).trans ?_
    rw [← List.cons_append]
    exact List.perm_append_comm

end Arena

end TildeMarkup
