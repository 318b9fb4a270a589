import TildeMarkup.Document.Walk
import TildeMarkup.Html.Escape
import TildeMarkup.Text.Lines
import TildeMarkup.Builtin

/-!
# Rendering

The HTML of a document. `checkNode` says which layers can be rendered, and `renderNode` what one of
them gives, once its children have been rendered. A command is checked before anything below it: its
name, the number of its arguments, their kinds from left to right, then the file of a listing.
-/

namespace TildeMarkup.Html

/-- The start tag of an element without attributes. Only a link has one, and writes its own tag. -/
def openTag (tag : String) : Bytes :=
  Utf8.encode ("<" ++ tag ++ ">")

/-- The end tag of an element. -/
def closeTag (tag : String) : Bytes :=
  Utf8.encode ("</" ++ tag ++ ">")

/-- An element around some content, which is taken as it is. -/
def element (tag : String) (content : Bytes) : Bytes :=
  openTag tag ++ (content ++ closeTag tag)

/-- The text of a string argument: what stands between its quotes, decoded, with its escaped quotes
resolved. -/
def stringText (source : Bytes) (span : Span) : String :=
  Text.unescape (Utf8.decode (span.contents source))

/-- The element of a listing: a caption, then every line of the text. -/
def listing (tag language file text : String) : Bytes :=
  let caption := "<div class=\"language-tag\">" ++ language ++ " &bull; " ++ escape file ++ "</div>"
  -- The text is escaped as a whole and then cut into lines, which comes to the same as escaping each line.
  let lines := (Text.lines (escape text)).flatMap fun line => element "code" (Utf8.encode line)
  element tag (Utf8.encode caption ++ lines)

/-- Finds the first argument whose kind is not that of its parameter. The lists have one length where this
is asked. -/
def checkKinds {α : Type} : List Parameter → List (Argument α) → Except Fault Unit
  | param :: params, arg :: args =>
    if arg.kind = param.kind then checkKinds params args
    else .error ⟨.argumentKind param.kind, arg.span⟩
  | _, _ => .ok ()

/-- Checks the arguments of a command: their number, then their kinds. -/
def checkArguments {α : Type} (builtin : Builtin) (name : Span) (args : List (Argument α)) :
    Except Fault Unit :=
  if args.length = builtin.params.length then checkKinds builtin.params args
  else .error ⟨.argumentCount builtin.params.length args.length, name⟩

/-- Checks that a listing is of a file whose language is known. -/
def checkLanguage {α : Type} (source : Bytes) (builtin : Builtin) (args : List (Argument α)) :
    Except Fault Unit :=
  match builtin.form, args with
  | .listing, .string file :: _ =>
    let fileName := stringText source file
    if (Listing.language? fileName).isSome then .ok ()
    else .error ⟨.unknownLanguage ((Listing.extension? fileName).getD ""), file⟩
  | _, _ => .ok ()

/-- Checks a command: its name, its arguments, then the file of a listing. -/
def checkCommand {α : Type} (source : Bytes) (name : Span) (args : List (Argument α)) :
    Except Fault Unit :=
  let text := commandName source name
  match Builtin.find? text with
  | none => .error ⟨.unknownCommand text, name⟩
  | some builtin => do
    checkArguments builtin name args
    checkLanguage source builtin args

/-- Checks a layer. Only a command can be at fault. -/
def checkNode (source : Bytes) : Node Unit → Except Failure Unit
  | .command name args => do
    checkName source name
    (checkCommand source name args).mapError Failure.fault
  | _ => .ok ()

/-- The HTML of a command, by its form. The last case stands for arguments that the check lets nobody
render. -/
def renderCall (source : Bytes) (builtin : Builtin) (args : List (Argument Bytes)) : Bytes :=
  match builtin.form, args with
  | .enclosed, [arg] => element builtin.tag arg.children.flatten
  | .code, [.string span] =>
    element builtin.tag (Utf8.encode (escape (stringText source span)))
  -- The target is the one part of a document that is copied without being decoded or escaped.
  | .link, [.inline content _, .string href] =>
    Utf8.encode ("<" ++ builtin.tag ++ " href=\"") ++ (href.contents source
      ++ (Utf8.encode "\">" ++ (content ++ closeTag builtin.tag)))
  | .listing, [.string file, .string text] =>
    let fileName := stringText source file
    listing builtin.tag ((Listing.language? fileName).getD "") fileName (stringText source text)
  | _, _ => []

/-- The HTML of one layer, from that of its children. Text is copied from the source byte by byte. -/
def renderNode (source : Bytes) : Node Bytes → Bytes
  | .group children => children.flatten
  | .paragraph children => element "p" children.flatten
  | .text span => span.slice source
  | .command name args =>
    match Builtin.find? (commandName source name) with
    | none => []
    | some builtin => renderCall source builtin args

/-- How rendering visits a layer: all checks of a command come before anything below it is rendered. -/
def visit (source : Bytes) : Visit Bytes :=
  ⟨checkNode source, renderNode source⟩

/-- The HTML of a tree. -/
def renderTree (source : Bytes) (tree : Tree) : Except Failure Bytes :=
  tree.walk (visit source)

/-- The HTML of the document in an arena. -/
def render {ι : Type} [Handle ι] (source : Bytes) (arena : Arena ι) : Except Failure Bytes :=
  arena.walk (visit source)

end TildeMarkup.Html
