import TildeMarkup.Proofs.Document.Postorder
import TildeMarkup.Proofs.Spelling.Holds

/-!
# The order of names

Names start one after the other in a source, in the order in which a walk meets their commands
(`pairwise_nameStarts`): a command starts in front of everything it holds. Two commands of the arena
of a source therefore never have names that start at one place (`Arena.nameStart_ne`), even where the
names are empty.
-/

namespace TildeMarkup

/-- Where the name of a command starts; other layers have no name. -/
def Node.nameStart? {α : Type} : Node α → Option Nat
  | command name _ => some name.start
  | _ => none

@[simp] theorem Node.nameStart?_shape {α : Type} (layer : Node α) :
    layer.shape.nameStart? = layer.nameStart? := by
  cases layer <;> rfl

namespace Tree

/-- Where the names of a tree start, in the order of a walk. -/
def nameStarts (tree : Tree) : List Nat :=
  tree.preorder.filterMap Node.nameStart?

theorem filterMap_flatMap_preorder (trees : List Tree) :
    (trees.flatMap preorder).filterMap Node.nameStart? = trees.flatMap nameStarts := by
  induction trees with
  | nil => rfl
  | cons tree rest ih => rw [List.flatMap_cons, List.filterMap_append, ih, List.flatMap_cons]; rfl

theorem nameStarts_node {layer : Node Tree} (h : layer.nameStart? = none) :
    (node layer).nameStarts = layer.children.flatMap nameStarts := by
  rw [nameStarts, preorder_node, List.filterMap_cons_none (by rw [Node.nameStart?_shape, h]),
    filterMap_flatMap_preorder]

theorem nameStarts_command (name : Span) (args : List (Argument Tree)) :
    (node (.command name args)).nameStarts
      = name.start :: args.flatMap fun arg => arg.children.flatMap nameStarts := by
  have hname : (Node.command name args).shape.nameStart? = some name.start := rfl
  rw [nameStarts, preorder_node, List.filterMap_cons_some hname, filterMap_flatMap_preorder,
    Node.children, List.flatMap_assoc]

/-- Where names rise, those of layers that a walk meets later start later. -/
theorem nameStart_lt {tree : Tree} (h : tree.nameStarts.Pairwise (· < ·))
    {front back : List (Node Unit)} {layer later : Node Unit}
    (hpreorder : tree.preorder = front ++ layer :: back) (hlater : later ∈ back) {start next : Nat}
    (hstart : layer.nameStart? = some start) (hnext : later.nameStart? = some next) :
    start < next := by
  unfold nameStarts at h
  rw [hpreorder, List.filterMap_append, List.pairwise_append, List.filterMap_cons_some hstart,
    List.pairwise_cons] at h
  obtain ⟨_, ⟨hbehind, _⟩, _⟩ := h
  exact hbehind next (List.mem_filterMap.2 ⟨later, hlater, hnext⟩)

end Tree

namespace Spelling

/-! ## The names of a spelling -/

/-- Names start one after the other between two offsets, the first of which is that of no name: a
tilde stands in front of each. -/
def Rising (lo : Nat) (starts : List Nat) (hi : Nat) : Prop :=
  Ascending (lo + 1) (starts.map fun start => ⟨start, start + 1⟩) (hi + 1)

namespace Rising

variable {lo mid hi : Nat} {starts more : List Nat}

theorem nil (h : lo ≤ hi) : Rising lo [] hi :=
  Ascending.nil (Nat.succ_le_succ h)

/-- Names up to some offset, and names from there on, rise together. -/
theorem append (h : Rising lo starts mid) (hmore : Rising mid more hi) :
    Rising lo (starts ++ more) hi := by
  rw [Rising, List.map_append]
  exact Ascending.append h hmore

/-- A command in front of names: its tilde stands before its own name and before all of them. -/
theorem cons (h : Rising mid starts hi) (hlo : lo < mid) : Rising lo ((lo + 1) :: starts) hi :=
  Ascending.cons (Nat.le_refl _) (Nat.le_succ _) (Ascending.weaken h (Nat.succ_le_succ hlo))

theorem mono {lo' hi' : Nat} (h : Rising lo starts hi) (hlo : lo' ≤ lo) (hhi : hi ≤ hi') :
    Rising lo' starts hi' := by
  have hafter := (nil hlo).append (h.append (nil hhi))
  rwa [List.nil_append, List.append_nil] at hafter

/-- Names that rise between two offsets start one after the other. -/
theorem pairwise (h : Rising lo starts hi) : starts.Pairwise (· < ·) := by
  have hspans := Ascending.pairwise h
  rwa [List.pairwise_map] at hspans

end Rising

theorem flatMap_map_inline (trees : List Tree) (span : Span) :
    (trees.map fun child => Argument.inline child span).flatMap
      (fun arg => arg.children.flatMap Tree.nameStarts) = trees.flatMap Tree.nameStarts := by
  rw [List.flatMap_map]
  exact List.flatMap_congr fun tree _ => List.append_nil _

theorem flatMap_singleton_nameStarts (tree : Tree) :
    [tree].flatMap Tree.nameStarts = tree.nameStarts := by
  rw [List.flatMap_cons, List.flatMap_nil, List.append_nil]

mutual

/-- The names of a part rise between its two ends, by induction on the spelling. -/
theorem Part.rising : ∀ (part : Part) (n : Nat),
    Rising n ((part.trees n).flatMap Tree.nameStarts) (n + part.bytes.length)
  | .blank b, n => .nil (Nat.le_add_right n _)
  | .text bytes, n => .nil (Nat.le_add_right n _)
  | .run bracketed pieces ending, n => by
    have hnames : ((Part.run bracketed pieces ending).trees n).flatMap Tree.nameStarts
        = (Part.treesAll n pieces).flatMap Tree.nameStarts := by
      cases bracketed with
      | true => exact (flatMap_singleton_nameStarts _).trans (Tree.nameStarts_node rfl)
      | false => exact (flatMap_singleton_nameStarts _).trans (Tree.nameStarts_node rfl)
    rw [hnames, Part.bytes, List.length_append]
    exact (Part.risingAll pieces n).mono (Nat.le_refl n) (by omega)
  | .call name gap listed args, n => by
    have hnames : ((Part.call name gap listed args).trees n).flatMap Tree.nameStarts
        = (n + 1) :: (Arg.argumentsAll (argsStart n name gap listed) args).flatMap
          fun arg => arg.children.flatMap Tree.nameStarts :=
      (flatMap_singleton_nameStarts _).trans (Tree.nameStarts_command _ _)
    rw [hnames, Part.length_bytes_call]
    have hstart : n < argsStart n name gap listed := by
      rw [argsStart]
      omega
    exact ((Arg.risingAll args _).mono (Nat.le_refl _) (Nat.le_add_right _ _)).cons hstart
termination_by structural part => part

theorem Part.risingAll : ∀ (parts : List Part) (n : Nat),
    Rising n ((Part.treesAll n parts).flatMap Tree.nameStarts) (n + (Part.bytesAll parts).length)
  | [], n => .nil (Nat.le_refl n)
  | part :: rest, n => by
    rw [Part.treesAll, List.flatMap_append, Part.bytesAll, List.length_append, ← Nat.add_assoc]
    exact (Part.rising part n).append (Part.risingAll rest _)
termination_by structural parts => parts

theorem Arg.rising : ∀ (arg : Arg) (n : Nat),
    Rising n ((arg.arguments n).flatMap fun a => a.children.flatMap Tree.nameStarts)
      (n + arg.bytes.length)
  | .blank b, n => .nil (Nat.le_add_right n _)
  | .comma, n => .nil (Nat.le_add_right n _)
  | .ident letters, n => .nil (Nat.le_add_right n _)
  | .string raw, n => .nil (Nat.le_add_right n _)
  | .inline part, n => by
    rw [Arg.length_bytes_inline, Arg.arguments, flatMap_map_inline]
    exact (Part.rising part (n + 1)).mono (Nat.le_succ n) (by omega)
  | .block parts, n => by
    rw [Arg.length_bytes_block, Arg.arguments, List.flatMap_cons, List.flatMap_nil, List.append_nil]
    exact (Part.risingAll parts (n + 1)).mono (Nat.le_succ n) (by omega)
termination_by structural arg => arg

theorem Arg.risingAll : ∀ (args : List Arg) (n : Nat),
    Rising n ((Arg.argumentsAll n args).flatMap fun a => a.children.flatMap Tree.nameStarts)
      (n + (Arg.bytesAll args).length)
  | [], n => .nil (Nat.le_refl n)
  | arg :: rest, n => by
    rw [Arg.argumentsAll, List.flatMap_append, Arg.bytesAll, List.length_append, ← Nat.add_assoc]
    exact (Arg.rising arg n).append (Arg.risingAll rest _)
termination_by structural args => args

end

/-- A walk meets the commands of a document in the order in which their names start. -/
theorem pairwise_nameStarts (parts : List Part) :
    (documentTree parts).nameStarts.Pairwise (· < ·) := by
  rw [documentTree, Tree.nameStarts_node rfl]
  exact (Part.risingAll parts 0).pairwise

end Spelling

/-! ## The names of an arena -/

/-- Where the names of a tree rise, no two commands of its arena have names that start at one
place. -/
theorem Arena.nameStart_ne {tree : Tree} (hrising : tree.nameStarts.Pairwise (· < ·))
    {first second : Nat} (hne : first ≠ second) {name other : Span} {args more : List (Argument Nat)}
    (hfirst : tree.toArena.get? first = some (.command name args))
    (hsecond : tree.toArena.get? second = some (.command other more)) : name.start ≠ other.start := by
  -- The nodes are listed in another order than that of a walk, but they are the same nodes.
  have hstarts : (tree.toArena.nodes.toList.filterMap Node.nameStart?).Pairwise (· ≠ ·) := by
    have hshapes : tree.toArena.nodes.toList.filterMap Node.nameStart?
        = tree.postorder.filterMap Node.nameStart? := by
      rw [← (listing_toArena tree).2, List.filterMap_map]
      exact List.filterMap_congr fun layer _ => (Node.nameStart?_shape layer).symm
    rw [hshapes]
    exact ((tree.postorder_perm_preorder.filterMap Node.nameStart?).nodup_iff).2
      (hrising.imp Nat.ne_of_lt)
  rw [List.pairwise_filterMap, List.pairwise_iff_getElem] at hstarts
  rw [get?_eq, List.getElem?_eq_some_iff] at hfirst hsecond
  obtain ⟨hlt, hfirst⟩ := hfirst
  obtain ⟨hlt', hsecond⟩ := hsecond
  rcases Nat.lt_or_gt_of_ne hne with hless | hless
  · exact hstarts first second hlt hlt' hless name.start (by rw [hfirst]; rfl) other.start
      (by rw [hsecond]; rfl)
  · exact (hstarts second first hlt' hlt hless other.start (by rw [hsecond]; rfl) name.start
      (by rw [hfirst]; rfl)).symm

end TildeMarkup
