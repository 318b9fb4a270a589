import TildeMarkup.Document.Tree

/-!
# Arenas

A document as a list of nodes that stand for each other. Nodes are only ever added, so what stands for
a node can stand for it from then on; nothing is checked when one is added, so a child may be missing,
shared or above its parent. The arena of a tree lists its nodes in post-order: `Tree.number` gives every
child its number before its parent.

What reading a source gives has natural numbers for handles. An arena that is put together by hand may
have integers, and there those below zero count from the end.
-/

namespace TildeMarkup

/-- What can stand for a node of an arena. -/
class Handle (ι : Type) where
  /-- The place of the node that a handle stands for, where there are so many nodes. -/
  place? : (size : Nat) → ι → Option Nat

/-- A natural number is the place itself. -/
instance : Handle Nat :=
  ⟨fun _ id => some id⟩

/-- An integer below zero is a place counted from the end, and none if it goes past the first node. So
unlike any other it stands for another node when nodes are added. -/
instance : Handle Int where
  place? size id :=
    if 0 ≤ id then some id.toNat
    else if 0 ≤ size + id then some (size + id).toNat
    else none

/-- Numbered nodes, and the handle of the one that is the whole document. -/
structure Arena (ι : Type := Nat) where
  nodes : Array (Node ι)
  root : ι

namespace Arena

variable {ι : Type}

/-- The arena without nodes. -/
def empty [OfNat ι 0] : Arena ι := ⟨#[], 0⟩

/-- Adds a node: its number, and the arena with it. -/
def push (arena : Arena ι) (node : Node ι) : Nat × Arena ι :=
  (arena.nodes.size, { arena with nodes := arena.nodes.push node })

/-- The node that a handle stands for. -/
def get? [Handle ι] (arena : Arena ι) (id : ι) : Option (Node ι) :=
  match Handle.place? arena.nodes.size id with
  | some place => arena.nodes[place]?
  | none => none

end Arena

namespace Tree

/-- Numbers the nodes of a tree in post-order, after those that are there already. -/
def number : Tree → StateM (Array (Node Nat)) Nat :=
  fold fun layer => do
    let node ← layer.mapM id
    modifyGet fun nodes => (nodes.size, nodes.push node)

/-- The arena that lists the nodes of a tree in post-order. -/
def toArena (tree : Tree) : Arena :=
  let (root, nodes) := tree.number.run #[]
  ⟨nodes, root⟩

end Tree

end TildeMarkup
