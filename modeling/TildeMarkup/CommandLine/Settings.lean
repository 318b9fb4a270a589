import TildeMarkup.CommandLine.Arguments
import TildeMarkup.Html.Page
import TildeMarkup.Store.Path
import TildeMarkup.Toml.Document

/-!
# Settings

What a run is to do: the arguments, completed by the configuration. What is said on the command line
takes precedence, except that the style sheets of both are linked, those of the configuration first.
-/

namespace TildeMarkup.CommandLine

/-- What a run is to do. -/
structure Settings where
  input : Path
  /-- Where the result is written, if not to the standard output. -/
  output : Option Path
  /-- The result is a whole page. -/
  standalone : Bool
  title : Given
  language : Option Given
  styleSheets : List Given
  watch : Bool
  debug : Bool
  deriving DecidableEq, Repr

/-- Why a configuration file gives no settings. -/
inductive ConfigFault where
  /-- The content is no text. -/
  | notUtf8
  /-- The text is no TOML document. -/
  | invalid (problem : Toml.Problem)
  /-- An integer has more decimal digits than are converted, where it is read or where its text is asked
  for. -/
  | tooManyDigits
  deriving DecidableEq, Repr

/-- What a problem of the text means for the configuration. Only if the text is no TOML document is the
configuration invalid. -/
def ConfigFault.ofProblem : Toml.Problem → ConfigFault
  | .tooManyDigits => .tooManyDigits
  | problem => .invalid problem

namespace Config

/-- The name under which a configuration is looked for beside the input. -/
def fileName : String := "reverie.toml"

/-- The table that the content of a configuration file describes. -/
def read (content : Bytes) : Except ConfigFault Toml.Value :=
  match Utf8.decode? content with
  | none => .error .notUtf8
  | some text => (Toml.parse text).mapError ConfigFault.ofProblem

/-- A truth value of the page table. -/
def boolean? (page : Toml.Value) (key : String) : Option Bool :=
  match page.lookup? key with
  | some (.boolean b) => some b
  | _ => none

/-- A string of the page table. -/
def string? (page : Toml.Value) (key : String) : Option String :=
  match page.lookup? key with
  | some (.string text) => some text
  | _ => none

/-- The items of an array of the page table. -/
def items (page : Toml.Value) (key : String) : List Toml.Value :=
  match page.lookup? key with
  | some (.array items) => items
  | _ => []

/-- The texts of an array of the page table. There are none if one of the items has no text. -/
def texts (page : Toml.Value) (key : String) : Except ConfigFault (List String) :=
  -- The texts are made one after the other, and the first item that has none ends it.
  match (items page key).mapM Toml.Value.toText? with
  | some texts => .ok texts
  | none => .error .tooManyDigits

/-- The page table of a configuration, empty if there is none. -/
def page (config : Toml.Value) : Toml.Value :=
  (config.lookup? "page").getD (.table [])

end Config

/-- Where the configuration is: at the path that the arguments name, or beside the input. -/
def Arguments.configPath (args : Arguments) : Path :=
  match args.config.bind Given.nonempty? with
  | some text => .ofText text
  | none => (Path.ofText args.input).parent.child Config.fileName

namespace Settings

/-- What the page says besides its content. -/
def head (settings : Settings) : Html.PageHead :=
  { title := settings.title.toText
    language := settings.language.map Given.toText
    styleSheets := settings.styleSheets.map Given.toText }

/-- The settings that arguments and a configuration make together. The one thing that can go wrong is that
an item of the style sheets has no text. -/
def merge (args : Arguments) (config : Toml.Value) : Except ConfigFault Settings := do
  let page := Config.page config
  let input := Path.ofText args.input
  let styleSheets ← Config.texts page "css"
  return {
    input
    -- An empty name of an output file means the standard output.
    output := (args.output.bind Given.nonempty?).map Path.ofText
    standalone := args.standalone.getD ((Config.boolean? page "standalone").getD false)
    -- What was said counts, then what is configured, then the name of the input.
    title := args.title.getD (.text ((Config.string? page "title").getD input.stem))
    language := args.language.or ((Config.string? page "lang").map Given.text)
    -- Style sheets are the one setting that adds up.
    styleSheets := styleSheets.map Given.text ++ args.styleSheets
    watch := args.watch
    debug := args.debug }

/-- The settings that arguments and the content of the configuration file make together. Without
such a file the configuration is empty. -/
def resolve (args : Arguments) (content : Option Bytes) : Except ConfigFault Settings := do
  match content with
  | none => merge args (.table [])
  | some content => merge args (← Config.read content)

end Settings

end TildeMarkup.CommandLine
