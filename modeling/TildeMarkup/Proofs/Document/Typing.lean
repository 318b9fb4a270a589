import Mathlib.Data.List.Chain
import TildeMarkup.Proofs.Document.Marks

/-!
# What may stand where

Two kinds of place in a document. Blocks are paragraphs and commands: they stand in the document itself
and in braces. A run is of texts and commands: it stands in a paragraph and in square brackets. Below
a run no command takes an argument in braces, so that there are no blocks inside of it.

`WellTyped` says that a tree keeps to this, and that its texts are pieces of single lines.
-/

namespace TildeMarkup

namespace Tree

/-- The tree is a single piece of text. -/
def isText : Tree → Bool
  | node (.text _) => true
  | _ => false

/-- The tree is a command, with whatever arguments. -/
def isCommand : Tree → Bool
  | node (.command ..) => true
  | _ => false

/-- The tree is a paragraph. -/
def isParagraph : Tree → Bool
  | node (.paragraph _) => true
  | _ => false

/-- Paragraphs and commands, in any order. -/
def AreBlocks (trees : List Tree) : Prop :=
  ∀ tree ∈ trees, tree.isParagraph = true ∨ tree.isCommand = true

/-- Texts and commands, no two texts of which stand side by side. -/
structure AreRun (trees : List Tree) : Prop where
  kinds : ∀ tree ∈ trees, tree.isText = true ∨ tree.isCommand = true
  apart : trees.IsChain fun first second => first.isText = false ∨ second.isText = false

/-- No command of the tree has an argument in braces, at any depth. -/
def Blockless (tree : Tree) : Prop :=
  ∀ name args, tree.Has (.command name args) → ∀ arg ∈ args, arg.kind ≠ .block

end Tree

open TildeMarkup.Tree

/-- The span covers a piece of a line: at least one byte, no tilde and no line end. A carriage return may
be its last byte, if no line feed follows. -/
structure Span.IsLinePiece (source : Bytes) (span : Span) : Prop where
  nonempty : span.start < span.stop
  within : span.stop ≤ source.length
  tilde : tilde ∉ span.slice source
  lineFeed : lineFeed ∉ span.slice source
  lineEnd : (span.slice source).getLast? = some carriageReturn →
    source[span.stop]? ≠ some TildeMarkup.lineFeed

/-- Every node of the tree is of a kind that may stand where it does. -/
structure WellTyped (source : Bytes) (tree : Tree) : Prop where
  /-- The document is a group of blocks. -/
  root : ∃ children, tree = .node (.group children) ∧ AreBlocks children
  /-- In braces are blocks. -/
  block : ∀ name args children span, tree.Has (.command name args) →
    .block children span ∈ args → AreBlocks children
  /-- A paragraph is a run that starts with a text, the first byte of which is no blank. -/
  paragraph : ∀ children, tree.Has (.paragraph children) → AreRun children
    ∧ ∃ span rest b, children = .node (.text span) :: rest ∧ source[span.start]? = some b
      ∧ isBlank b = false
  /-- In square brackets is a command, or a run that starts with a text if it is not empty. -/
  inline : ∀ name args child span, tree.Has (.command name args) → .inline child span ∈ args →
    child.isCommand = true ∨ ∃ children, child = .node (.group children) ∧ AreRun children
      ∧ ∀ first ∈ children.head?, first.isText = true
  /-- No argument in braces stands below a paragraph, or below an argument in square brackets. -/
  paragraphBlockless : ∀ children, tree.Has (.paragraph children) →
    (Tree.node (.paragraph children)).Blockless
  inlineBlockless : ∀ name args child span, tree.Has (.command name args) →
    .inline child span ∈ args → child.Blockless
  /-- A text is a piece of a line. -/
  text : ∀ span, tree.Has (.text span) → span.IsLinePiece source

/-! ## Trees below -/

namespace Tree

/-- What holds of all commands of a tree holds of those below a child of it. -/
theorem Blockless.child {layer : Node Tree} (h : (node layer).Blockless) {child : Tree}
    (hchild : child ∈ layer.children) : child.Blockless :=
  fun name args hhas => h name args (.child hchild hhas)

end Tree

end TildeMarkup
