import TildeMarkup.Document.Node

/-!
# Trees

The document as a tree of nodes. Everything that walks a tree is a fold: it says what one layer
gives, once its children have been done. `Tree.fold_node` is the one equation of the fold, and
`Tree.induction` the one induction that its laws need.
-/

namespace TildeMarkup

/-- A node whose children are trees. -/
inductive Tree where
  | node (layer : Node Tree)

namespace Tree

variable {β : Type}

mutual

/-- Replaces every layer of a tree, from the leaves up, by what `f` makes of it. -/
def fold (f : Node β → β) : Tree → β
  | node layer => f (foldNode f layer)

/-- The layer with every child folded. -/
def foldNode (f : Node β → β) : Node Tree → Node β
  | .group children => .group (foldList f children)
  | .paragraph children => .paragraph (foldList f children)
  | .text span => .text span
  | .command name args => .command name (foldArguments f args)

/-- Every tree of a list folded. -/
def foldList (f : Node β → β) : List Tree → List β
  | [] => []
  | tree :: rest => fold f tree :: foldList f rest

/-- Every argument of a list with its children folded. -/
def foldArguments (f : Node β → β) : List (Argument Tree) → List (Argument β)
  | [] => []
  | arg :: rest => foldArgument f arg :: foldArguments f rest

/-- The argument with every child folded. -/
def foldArgument (f : Node β → β) : Argument Tree → Argument β
  | .block children span => .block (foldList f children) span
  | .inline child span => .inline (fold f child) span
  | .ident span => .ident span
  | .string span => .string span

end

/-- The list that comes with the fold is nothing but a map. With this and the next two, no proof has to
open the mutual definition again. -/
theorem foldList_eq_map (f : Node β → β) (trees : List Tree) :
    foldList f trees = trees.map (fold f) := by
  induction trees with
  | nil => rfl
  | cons tree rest ih => rw [foldList, ih, List.map_cons]

theorem foldArgument_eq_map (f : Node β → β) (arg : Argument Tree) :
    foldArgument f arg = arg.map (fold f) := by
  cases arg <;> simp only [foldArgument, Argument.map, foldList_eq_map]

theorem foldArguments_eq_map (f : Node β → β) (args : List (Argument Tree)) :
    foldArguments f args = args.map (Argument.map (fold f)) := by
  induction args with
  | nil => rfl
  | cons arg rest ih => rw [foldArguments, ih, List.map_cons, foldArgument_eq_map]

/-- The fold of a tree is `f` of its layer, with the children folded. -/
theorem fold_node (f : Node β → β) (layer : Node Tree) :
    fold f (node layer) = f (layer.map (fold f)) := by
  cases layer <;>
    simp only [fold, foldNode, Node.map, foldList_eq_map, foldArguments_eq_map]

/-- What holds of a tree whenever it holds of the trees one level down holds of every tree. -/
theorem induction {P : Tree → Prop}
    (step : ∀ layer : Node Tree, (∀ child ∈ layer.children, P child) → P (node layer)) :
    ∀ tree, P tree :=
  Tree.rec
    -- Each of the five types that are defined together says the same of the trees that it holds one level
    -- down; only a layer has a step to make.
    (motive_1 := P)
    (motive_2 := fun layer => ∀ child ∈ layer.children, P child)
    (motive_3 := fun trees => ∀ child ∈ trees, P child)
    (motive_4 := fun args => ∀ child ∈ args.flatMap Argument.children, P child)
    (motive_5 := fun arg => ∀ child ∈ arg.children, P child)
    step
    (fun _ ih => ih)
    (fun _ ih => ih)
    (fun _ child h => by cases h)
    (fun _ _ ih => ih)
    (fun child h => by cases h)
    (fun tree rest ih ihs child h => by
      rcases List.mem_cons.1 h with rfl | h
      · exact ih
      · exact ihs child h)
    (fun child h => by cases h)
    (fun arg rest ih ihs child h => by
      rw [List.flatMap_cons, List.mem_append] at h
      rcases h with h | h
      · exact ih child h
      · exact ihs child h)
    (fun _ _ ih => ih)
    (fun tree _ ih child h => by
      rcases List.mem_singleton.1 h with rfl
      exact ih)
    (fun _ child h => by cases h)
    (fun _ child h => by cases h)

/-- The number of nodes of a tree. -/
def size : Tree → Nat :=
  fold fun layer => layer.children.foldr (· + ·) 1

end Tree

end TildeMarkup
