import TildeMarkup.Proofs.Document.Respan

/-!
# Shifted trees

The tree of a source that stands further to the right in another one: every span is moved by as many
bytes. A fault moves with the source that it is found in.
-/

namespace TildeMarkup

variable {α : Type}

namespace Argument

/-- The argument with its span moved, as it is found in a source with more in front of it. -/
def shift (n : Nat) : Argument α → Argument α
  | block children span => .block children (span.shift n)
  | inline child span => .inline child (span.shift n)
  | ident span => .ident (span.shift n)
  | string span => .string (span.shift n)

theorem shift_eq_respan (n : Nat) : shift (α := α) n = respan fun span => span.shift n := by
  funext arg
  cases arg <;> rfl

theorem shift_zero (arg : Argument α) : arg.shift 0 = arg := by
  cases arg <;> rfl

end Argument

namespace Node

/-- The layer with its spans moved. -/
def shift (n : Nat) : Node α → Node α
  | group children => .group children
  | paragraph children => .paragraph children
  | text span => .text (span.shift n)
  | command name args => .command (name.shift n) (args.map (Argument.shift n))

theorem shift_eq_respan (n : Nat) : shift (α := α) n = respan fun span => span.shift n := by
  funext layer
  cases layer with
  | command name args => rw [shift, respan, Argument.shift_eq_respan]
  | _ => rfl

theorem shift_zero (layer : Node α) : layer.shift 0 = layer := by
  cases layer with
  | command name args =>
    have hargs : args.map (Argument.shift 0) = args := by
      rw [funext Argument.shift_zero]
      exact List.map_id' args
    rw [shift, hargs]
    rfl
  | _ => rfl

end Node

/-- The tree with every span moved by the same number of bytes. -/
def Tree.shift (n : Nat) : Tree → Tree :=
  Tree.fold fun layer => .node (layer.shift n)

/-- Moving is one way of replacing spans, so what holds of documents over another source holds of moved
ones. -/
theorem Tree.shift_eq_respan (n : Nat) : Tree.shift n = Tree.respan fun span => span.shift n := by
  rw [shift, Node.shift_eq_respan]
  rfl

theorem Tree.shift_node (n : Nat) (layer : Node Tree) :
    (Tree.node layer).shift n = .node ((layer.map (Tree.shift n)).shift n) :=
  Tree.fold_node _ layer

theorem Tree.shift_zero (tree : Tree) : tree.shift 0 = tree := by
  refine Tree.induction (P := fun tree => tree.shift 0 = tree) (fun layer ih => ?_) tree
  rw [shift_node, Node.shift_zero, Node.map_eq_self ih]

/-- The fault of a source that stands further to the right. Its cause names no offsets, so only the span
is moved. -/
def Fault.shift (n : Nat) (fault : Fault) : Fault :=
  ⟨fault.cause, fault.span.shift n⟩

/-- The failure of a source that stands further to the right, be it found while reading or later. -/
def Failure.shift (n : Nat) : Failure → Failure
  | .fault found => .fault (found.shift n)
  | .nameNotAscii name => .nameNotAscii (name.shift n)
  | .missingNode => .missingNode
  | .endless => .endless

theorem Failure.shift_eq_respan (n : Nat) :
    Failure.shift n = Failure.respan fun span => span.shift n := by
  funext failure
  cases failure <;> rfl

end TildeMarkup
