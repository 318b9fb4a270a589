import TildeMarkup.Document.Node

/-!
# Builtin commands

The commands of the language, with the parameters that each takes and the element that it gives, and
the languages of a listing.
-/

namespace TildeMarkup

/-- What a command makes of its arguments once they have been checked. Several commands share a form and
differ in nothing but their tags. -/
inductive Form where
  /-- An element around the nodes of the only argument. -/
  | enclosed
  /-- An element with the text of the only argument. -/
  | code
  /-- An element with a target, around the first argument. -/
  | link
  /-- A caption with a file name, and one element for each line of a text. -/
  | listing
  deriving DecidableEq, Repr

/-- What a command expects at one place of its list: the name is for messages, and the kind is what is
checked. -/
structure Parameter where
  name : String
  kind : Kind
  deriving DecidableEq, Repr

/-- A command of the language, with the tag of the element that it gives and a parameter for each
argument. -/
structure Builtin where
  name : String
  tag : String
  params : List Parameter
  form : Form
  deriving DecidableEq, Repr

namespace Builtin

/-- All commands. -/
def all : List Builtin :=
  [⟨"i", "em", [⟨"text", .inline⟩], .enclosed⟩,
   ⟨"b", "strong", [⟨"text", .inline⟩], .enclosed⟩,
   ⟨"super", "sup", [⟨"text", .inline⟩], .enclosed⟩,
   ⟨"link", "a", [⟨"text", .inline⟩, ⟨"href", .string⟩], .link⟩,
   ⟨"code", "code", [⟨"code", .string⟩], .code⟩,
   ⟨"section", "h2", [⟨"title", .inline⟩], .enclosed⟩,
   ⟨"subsection", "h3", [⟨"title", .inline⟩], .enclosed⟩,
   ⟨"aside", "aside", [⟨"content", .block⟩], .enclosed⟩,
   ⟨"blockquote", "blockquote", [⟨"content", .block⟩], .enclosed⟩,
   ⟨"codeblock", "pre", [⟨"file", .string⟩, ⟨"code", .string⟩], .listing⟩]

/-- The command of a name, if there is one. Names are told apart by their case. -/
def find? (name : String) : Option Builtin :=
  all.find? fun builtin => builtin.name == name

end Builtin

namespace Listing

/-- The known languages: the extension of their files, without its dot, and the name that captions
show. -/
def languages : List (String × String) :=
  [("rs", "Rust"), ("txt", "Text")]

/-- What follows the last dot of a file name, if there is a dot. -/
def extension? (file : String) : Option String :=
  let chars := file.toList
  if chars.contains '.' then
    some (String.ofList (chars.reverse.takeWhile (· != '.')).reverse)
  else none

/-- The language of a file, by the extension of its name. A name without a dot has none, and so has one
whose extension is not known. -/
def language? (file : String) : Option String := do
  languages.lookup (← extension? file)

end Listing

end TildeMarkup
