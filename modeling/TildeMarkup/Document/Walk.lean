import TildeMarkup.Document.Arena
import TildeMarkup.Fault

/-!
# Walks over a document

Rendering and outlining visit a document from its root, depth first and from left to right. A layer
is checked before anything below it is visited, and the first failure ends the walk. Over the arena
of a source only a fault of that source can end a walk; over an arena put together by hand a node
may be missing, the walk may have no end, and a name may be no name.
-/

namespace TildeMarkup

/-- Why a walk gives nothing. -/
inductive Failure where
  /-- The source is at fault. -/
  | fault (fault : Fault)
  /-- The span of a command name covers bytes that are not ASCII. -/
  | nameNotAscii (name : Span)
  /-- A handle stands for no node. -/
  | missingNode
  /-- A node is below itself. -/
  | endless
  deriving DecidableEq, Repr

/-- What a walk does at each layer. The check comes first and sees no children, so what is below has no
say in it. -/
structure Visit (β : Type) where
  /-- Looks at the layer by itself, before anything below it is visited. -/
  check : Node Unit → Except Failure Unit
  /-- Puts together what has come of the layers below. -/
  join : Node β → β

/-- The text of a command name. -/
def commandName (source : Bytes) (name : Span) : String :=
  Utf8.decode (name.slice source)

/-- Checks that a command name is ASCII. A name that was read always is, but a span put together by hand
may cover any bytes. -/
def checkName (source : Bytes) (name : Span) : Except Failure Unit :=
  if (name.slice source).all (· < 0x80) then .ok () else .error (.nameNotAscii name)

/-- What comes of a layer, from what comes of the layers below. A failure of its own stands in front of
theirs, and the first of theirs in front of all others. -/
def Visit.layer {β : Type} (visit : Visit β) (layer : Node (Except Failure β)) :
    Except Failure β := do
  visit.check layer.shape
  return visit.join (← layer.mapM id)

/-- Walks a tree, which always has an end and never misses a node. -/
def Tree.walk {β : Type} (visit : Visit β) : Tree → Except Failure β :=
  Tree.fold visit.layer

namespace Arena

variable {ι β : Type} [Handle ι]

/-- Walks what is below a handle. A walk longer than the number of nodes meets one of them again
inside itself, so it has no end: `endless` is what comes of it where `steps` runs out. -/
def walkAt (arena : Arena ι) (visit : Visit β) : (steps : Nat) → (id : ι) → Except Failure β
  | 0, _ => .error .endless
  | steps + 1, id =>
    match arena.get? id with
    | none => .error .missingNode
    | some layer => do
      visit.check layer.shape
      return visit.join (← layer.mapM (arena.walkAt visit steps))

/-- Walks an arena from its root, with as many steps as a walk without repetition can need. -/
def walk (arena : Arena ι) (visit : Visit β) : Except Failure β :=
  arena.walkAt visit (arena.nodes.size + 1) arena.root

end Arena

end TildeMarkup
