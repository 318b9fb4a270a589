import TildeMarkup.Compile
import TildeMarkup.Report

/-!
# Diagnostics for an editor

An editor sends the whole text of a document whenever it changes, and is told what is wrong with it.
Lines count from 0, and columns in UTF-16 units, as editors want them.

The texts are kept in a workspace that is not part of the server: it is asked for the text of a document
when the document is validated.
-/

namespace TildeMarkup.Editor

/-- A place in a document: line from 0 on, and UTF-16 units before it on that line. -/
structure Place where
  line : Nat
  character : Nat
  deriving DecidableEq, Repr

/-- The place of an offset. The bytes of its line up to the offset are decoded as they are, so an offset
inside a character counts the broken part as one more. -/
def Place.ofOffset (source : Bytes) (offset : Nat) : Place :=
  { line := (source.take offset).count lineFeed
    character := Utf8.units16 (Utf8.decodeChars (Position.linePrefix source offset)) }

/-- A marked range of a document, and what is wrong there. Severities are numbered from 1, that of
errors, and the source is the name of what has found it. -/
structure Diagnostic where
  start : Place
  stop : Place
  message : String
  severity : Nat
  source : String
  deriving DecidableEq, Repr

/-- The diagnostic for a fault, at the places of both ends of its span. -/
def Diagnostic.ofFault (source : Bytes) (fault : Fault) : Diagnostic :=
  { start := .ofOffset source fault.span.start
    stop := .ofOffset source fault.span.stop
    message := fault.cause.message
    severity := 1
    source := "reverie" }

/-- What is wrong with a text: nothing, or the first fault. The text is compiled as UTF-8, so that offsets
are byte offsets of what the editor has. -/
def diagnose (text : String) : List Diagnostic :=
  let source := Utf8.encode text
  match compile source with
  | .error (.fault fault) => [.ofFault source fault]
  | _ => []

/-- The editor has opened a document, or has changed it to a new text. -/
structure Notification where
  document : String
  text : String
  deriving DecidableEq, Repr

/-- The diagnostics of a document. An empty list takes back what was published before. -/
structure Publication where
  document : String
  diagnostics : List Diagnostic
  deriving DecidableEq, Repr

/-! ## The server -/

/-- A workspace: how the text of a document is stored, and looked up. What the two have to do with each
other is left to those who reason about a server. -/
structure Workspace (W : Type) where
  put : W → String → String → W
  text : W → String → String

/-- The workspace that is a table of documents and texts. A document that was never stored is empty. -/
def table : Workspace (List (String × String)) where
  put documents document text := (document, text) :: documents.filter (·.1 != document)
  text documents document := (documents.lookup document).getD ""

section Server

variable {W : Type} (workspace : Workspace W)

/-- Compiles a document, and publishes what is wrong with it. The text is asked for anew each time. -/
def validate (documents : W) (document : String) : Publication :=
  ⟨document, diagnose (workspace.text documents document)⟩

/-- The text is stored, and then the document is validated. Opening a document and changing it are treated
alike. -/
def receive (documents : W) (note : Notification) : W × Publication :=
  let documents := workspace.put documents note.document note.text
  (documents, validate workspace documents note.document)

/-- What is published, one answer for every notification. -/
def serve : W → List Notification → List Publication
  | _, [] => []
  | documents, note :: rest =>
    let (documents, publication) := receive workspace documents note
    publication :: serve documents rest

end Server

/-- What is published by a server that starts without documents. -/
def publish (notifications : List Notification) : List Publication :=
  serve table [] notifications

end TildeMarkup.Editor
