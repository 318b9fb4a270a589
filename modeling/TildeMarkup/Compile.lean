import TildeMarkup.Reader
import TildeMarkup.Html.Render

/-!
# Compiling

From a source to an HTML fragment: the source is read into an arena, and the arena is rendered.
-/

namespace TildeMarkup

/-- The HTML fragment of a source. -/
def compile (source : Bytes) : Except Failure Bytes := do
  let arena ← (parse source).mapError Failure.fault
  Html.render source arena

end TildeMarkup
