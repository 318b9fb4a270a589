import TildeMarkup.CommandLine.Watch
import TildeMarkup.Compile
import TildeMarkup.Editor
import TildeMarkup.Html.Page
import TildeMarkup.Main
import TildeMarkup.Outline
import TildeMarkup.Report
import TildeMarkup.Proofs.Balance
import TildeMarkup.Proofs.Spelling.Basic
import TildeMarkup.Proofs.Reader.Moves
import TildeMarkup.Proofs.Spelling.Grammar
import TildeMarkup.Proofs.Spelling.Accepted
import TildeMarkup.Proofs.Spelling.Recovered
import TildeMarkup.Proofs.Content.Basic
import TildeMarkup.Proofs.Content.RoundTrip
import TildeMarkup.Proofs.Document.Marks
import TildeMarkup.Proofs.Spelling.Holds
import TildeMarkup.Proofs.Spelling.Placement
import TildeMarkup.Proofs.Spelling.Lists
import TildeMarkup.Proofs.Coverage
import TildeMarkup.Proofs.Document.Shift
import TildeMarkup.Proofs.Html.Local
import TildeMarkup.Proofs.Reader.Ground
import TildeMarkup.Proofs.Composition
import TildeMarkup.Proofs.Document.Strings
import TildeMarkup.Proofs.Spelling.Unquoted
import TildeMarkup.Proofs.Spelling.Brackets
import TildeMarkup.Proofs.Reader.Strings
import TildeMarkup.Proofs.Delimiters
import TildeMarkup.Proofs.Document.Traversal
import TildeMarkup.Proofs.Document.Postorder
import TildeMarkup.Proofs.Spelling.NameOrder
import TildeMarkup.Proofs.Html.Calls
import TildeMarkup.Proofs.Rendering
import TildeMarkup.Proofs.Document.Typing
import TildeMarkup.Proofs.Spelling.Typing
import TildeMarkup.Proofs.Html.Pieces
import TildeMarkup.Proofs.Nesting
import TildeMarkup.Proofs.Failures
import TildeMarkup.Proofs.Prefix
import TildeMarkup.Proofs.Wanted
import TildeMarkup.Proofs.Enclosure
import TildeMarkup.Proofs.Prose
import TildeMarkup.Proofs.Edit
import TildeMarkup.Proofs.Insertion
import TildeMarkup.Proofs.Opaque
import TildeMarkup.Proofs.Variants
import TildeMarkup.Proofs.Tags
import TildeMarkup.Proofs.LineEnds.Rendering
import TildeMarkup.Proofs.Links
import TildeMarkup.Proofs.Utf8.Boundary
import TildeMarkup.Proofs.Utf8.Decode
import TildeMarkup.Proofs.Outline.Drawing
import TildeMarkup.Proofs.Outline.Figure
import TildeMarkup.Proofs.Outline.Items
import TildeMarkup.Proofs.Outline.Picture
import TildeMarkup.Proofs.Position
import TildeMarkup.Proofs.Encoding
import TildeMarkup.Proofs.Reader.High
import TildeMarkup.Proofs.Touched
import TildeMarkup.Proofs.Report
import TildeMarkup.Proofs.Store
import TildeMarkup.Proofs.CommandLine.Attempt
import TildeMarkup.Proofs.Editor
import TildeMarkup.Proofs.CommandLine.Watch
import TildeMarkup.Proofs.CommandLine.Arguments
import TildeMarkup.Proofs.CommandLine.Run
import TildeMarkup.Proofs.Toml.Scan
import TildeMarkup.Proofs.Toml.Document
import TildeMarkup.Proofs.CommandLine.Config
import TildeMarkup.Proofs.Report.Lines
import TildeMarkup.Proofs.Position.Order
import TildeMarkup.Proofs.Html.Entities
import TildeMarkup.Proofs.Html.StringCalls
import TildeMarkup.Proofs.Code
import TildeMarkup.Proofs.Text.Lines
import TildeMarkup.Proofs.Listing
import TildeMarkup.Proofs.Html.Page
import TildeMarkup.Proofs.Document.Growth
import TildeMarkup.Proofs.Descent.Rules
import TildeMarkup.Proofs.Descent.Progress
import TildeMarkup.Proofs.Descent.Agreement
import TildeMarkup.Proofs.Descent.Outcome
import TildeMarkup.Proofs.Descent.Termination
import TildeMarkup.Proofs.Descent.Pushes
import TildeMarkup.Proofs.Descent.Stack
import TildeMarkup.Proofs.Descent.Brackets
import TildeMarkup.Proofs.Descent.Isolation
import TildeMarkup.Proofs.Size
import TildeMarkup.Proofs.Text.Quoted
