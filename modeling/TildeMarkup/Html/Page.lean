import TildeMarkup.Html.Escape
import TildeMarkup.Text.Utf8

/-!
# Pages

A whole HTML page around a fragment.
-/

namespace TildeMarkup.Html

/-- What a page says besides its content. All of it is text, and escaped only where it is written. -/
structure PageHead where
  title : String
  /-- The language of the page. An empty one is as good as none. -/
  language : Option String
  /-- The targets of the style sheets, in order. -/
  styleSheets : List String
  deriving DecidableEq, Repr

namespace PageHead

/-- The start tag of the page. The language is left out if there is none, or if it is empty. -/
def htmlTag (head : PageHead) : String :=
  match head.language with
  | none => "<html>\n"
  | some language =>
    if language.isEmpty then "<html>\n" else "<html lang=\"" ++ escape language ++ "\">\n"

/-- The line that links a style sheet, with the target as the value of an attribute. -/
def styleSheetLink (target : String) : String :=
  "<link rel=\"stylesheet\" href=\"" ++ escape target ++ "\">\n"

/-- All of the page before the fragment. The fragment then starts on a line of its own. -/
def toText (head : PageHead) : String :=
  "<!DOCTYPE html>\n" ++ head.htmlTag ++ "<head>\n<meta charset=\"utf-8\">\n<title>"
    ++ escape head.title ++ "</title>\n" ++ String.join (head.styleSheets.map styleSheetLink)
    ++ "</head>\n<body>\n<main>\n"

end PageHead

/-- The page around a fragment. -/
def page (head : PageHead) (fragment : Bytes) : Bytes :=
  Utf8.encode head.toText ++ (fragment ++ Utf8.encode "\n</main>\n</body>\n</html>\n")

end TildeMarkup.Html
