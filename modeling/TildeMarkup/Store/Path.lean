/-!
# Paths

A path as the parts between its slashes. Empty parts and single dots say nothing and are dropped;
double dots stay, because what they mean depends on the files that are there.
-/

namespace TildeMarkup

/-- A path: what stands before its first part, and its parts. -/
structure Path where
  /-- Empty for a relative path, else one slash, or two for a path that starts with exactly two. -/
  root : String
  parts : List String
  deriving DecidableEq, Repr

namespace Path

/-- The pieces of a text between the slashes. There is one more of them than there are slashes. -/
def pieces : List Char → List (List Char)
  | [] => [[]]
  | c :: rest =>
    if c == '/' then [] :: pieces rest
    else
      match pieces rest with
      | [] => [[c]]
      | piece :: others => (c :: piece) :: others

/-- What stands before the first part of a path. Exactly two slashes are kept, and any other number of
them counts as one. -/
def rootOf : List Char → String
  | '/' :: '/' :: '/' :: _ => "/"
  | '/' :: '/' :: _ => "//"
  | '/' :: _ => "/"
  | _ => ""

/-- The path that a text names. Different texts may name one path, but each path is named by its own
text. -/
def ofText (text : String) : Path :=
  { root := rootOf text.toList
    parts := ((pieces text.toList).map String.ofList).filter fun part =>
      part != "" && part != "." }

/-- The text of a path. The path without parts is a dot. -/
def toText (path : Path) : String :=
  let text := path.root ++ "/".intercalate path.parts
  if text.isEmpty then "." else text

/-- The path of the directory that a path lies in. A path without parts is its own. -/
def parent (path : Path) : Path :=
  { path with parts := path.parts.dropLast }

/-- The path of a name in a directory. -/
def child (path : Path) (name : String) : Path :=
  { path with parts := path.parts ++ [name] }

/-- The last part of a path, which is empty for a path without parts. -/
def name (path : Path) : String :=
  path.parts.getLast?.getD ""

/-- The name without its suffix, the part from its last dot on. A dot at either end starts no
suffix. -/
def stem (path : Path) : String :=
  let chars := path.name.toList
  let suffix := chars.reverse.takeWhile (· != '.')
  -- What stands in front of the last dot, without that dot.
  let before := chars.length - suffix.length - 1
  if suffix.length < chars.length && 0 < suffix.length && 0 < before then
    String.ofList (chars.take before)
  else path.name

end Path

end TildeMarkup
