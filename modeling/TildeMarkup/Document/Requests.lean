import TildeMarkup.Html.Render
import TildeMarkup.Outline

/-!
# Requests to an arena

An arena may be put together by hand, a node at a time, and be rendered or outlined in between. Whoever does
so has integers for handles. Nothing is checked but what a request needs: a root may be set that stands for
no node, and nodes may be pushed whose children are not there yet, or never will be.
-/

namespace TildeMarkup.Arena

/-- What may be asked of an arena that is put together by hand. -/
inductive Request where
  | push (node : Node Int)
  | setRoot (id : Int)
  | get (id : Int)
  | render
  | outline

/-- What is answered to a request that does not fail. -/
inductive Answer where
  | number (id : Int)
  | node (node : Node Int)
  | html (html : Bytes)
  | outline (text : String)

/-- The answer to a request, and the arena after it. Only what is pushed, and a root that is set, makes the
arena another one. -/
def answer (source : Bytes) (arena : Arena Int) : Request → Except Failure Answer × Arena Int
  | .push node => (.ok (.number (arena.push node).1), (arena.push node).2)
  | .setRoot id => (.ok (.number id), { arena with root := id })
  | .get id =>
    match arena.get? id with
    | some node => (.ok (.node node), arena)
    | none => (.error .missingNode, arena)
  | .render => ((Html.render source arena).map .html, arena)
  | .outline => ((TildeMarkup.outline source arena).map .outline, arena)

/-- The arena after some requests. -/
def after (source : Bytes) (arena : Arena Int) (requests : List Request) : Arena Int :=
  requests.foldl (fun arena request => (arena.answer source request).2) arena

end TildeMarkup.Arena
