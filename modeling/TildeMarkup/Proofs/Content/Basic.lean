import Mathlib.Data.List.Chain
import TildeMarkup.Proofs.Balance
import TildeMarkup.Document.Walk

/-!
# Contents

A document by itself: what its tree says once every span is replaced by the bytes that it covers.
A content knows neither a source nor a place in one.

`Content.print` writes a content down, `Arena.content` reads one off the arena of a source, and
`IsContentDocument` says which contents are those of a document. The blanks around printed blocks
are no part of the content: a `Layout` chooses them.
-/

namespace TildeMarkup

mutual

/-- A node without its places. It has the shape of a tree, with bytes in place of spans. -/
inductive Content where
  | group (children : List Content)
  | paragraph (children : List Content)
  | text (bytes : Bytes)
  | command (name : Bytes) (args : List ContentArg)

/-- An argument without its places: identifiers and strings hold their own bytes. -/
inductive ContentArg where
  | block (children : List Content)
  | inline (child : Content)
  | ident (letters : Bytes)
  | string (raw : Bytes)

end

/-! ## Printing -/

/-- The blanks around blocks that have `depth` braces around them: those in front of the first one,
and those behind each one, which has the blocks of `rest` after it. A paragraph ends its line, if
anything comes after it. -/
structure Layout where
  front (depth : Nat) : Bytes
  behind (depth : Nat) (block : Content) (rest : List Content) : Bytes
  isBlank_front (depth : Nat) : (front depth).all isBlank = true
  isBlank_behind (depth : Nat) (block : Content) (rest : List Content) :
    (behind depth block rest).all isBlank = true
  ends_line (depth : Nat) (pieces rest : List Content) :
    (behind depth (.paragraph pieces) rest).head? = some lineFeed
      ∨ behind depth (.paragraph pieces) rest = [] ∧ rest = []

/-- The layout in which every block ends its line, and nothing else is put between blocks. -/
def Layout.lines : Layout where
  front _ := []
  behind _ _ _ := [lineFeed]
  isBlank_front _ := rfl
  isBlank_behind _ _ _ := rfl
  ends_line _ _ _ := .inl rfl

mutual

/-- A command is `~name(arg,arg,...)`, and a text is its bytes. -/
def Content.print (layout : Layout) (depth : Nat) : Content → Bytes
  | .group children => Content.printAll layout depth children
  | .paragraph children => Content.printAll layout depth children
  | .text bytes => bytes
  | .command name args =>
    tilde :: (name ++ Bracket.round.opener :: (ContentArg.printFirst layout depth args
      ++ [Bracket.round.closer]))

/-- Pieces stand side by side. -/
def Content.printAll (layout : Layout) (depth : Nat) : List Content → Bytes
  | [] => []
  | child :: rest => child.print layout depth ++ Content.printAll layout depth rest

/-- Blocks have their blanks behind them. -/
def Content.printBlocks (layout : Layout) (depth : Nat) : List Content → Bytes
  | [] => []
  | child :: rest =>
    child.print layout depth
      ++ (layout.behind depth child rest ++ Content.printBlocks layout depth rest)

def ContentArg.print (layout : Layout) (depth : Nat) : ContentArg → Bytes
  | .block children =>
    Bracket.curly.opener :: (layout.front (depth + 1)
      ++ Content.printBlocks layout (depth + 1) children ++ [Bracket.curly.closer])
  | .inline child =>
    Bracket.square.opener :: (child.print layout depth ++ [Bracket.square.closer])
  | .ident letters => letters
  | .string raw => quote :: (raw ++ [quote])

/-- The arguments of a list. -/
def ContentArg.printFirst (layout : Layout) (depth : Nat) : List ContentArg → Bytes
  | [] => []
  | arg :: rest => arg.print layout depth ++ ContentArg.printMore layout depth rest

/-- The arguments of a list that others are in front of. -/
def ContentArg.printMore (layout : Layout) (depth : Nat) : List ContentArg → Bytes
  | [] => []
  | arg :: rest => comma :: (arg.print layout depth ++ ContentArg.printMore layout depth rest)

end

/-- The blocks of a document, with the blanks that the layout puts in front of them and behind each
one. -/
def Layout.print (layout : Layout) (blocks : List Content) : Bytes :=
  layout.front 0 ++ Content.printBlocks layout 0 blocks

/-! ## The contents of documents -/

/-- A quote in a string has a backslash in front of it, and a string does not end in one. -/
def Quoted (raw : Bytes) : Prop :=
  (∀ front back, raw = front ++ quote :: back → front.getLast? = some backslash)
    ∧ raw.getLast? ≠ some backslash

namespace Content

/-- The content is a text. Next to another one it would be read as one text with it. -/
def isText : Content → Bool
  | text _ => true
  | _ => false

def isPiece : Content → Bool
  | text _ => true
  | command .. => true
  | _ => false

def isParagraph : Content → Bool
  | paragraph _ => true
  | _ => false

/-- What a document, or an argument in braces, is made of: paragraphs and commands. -/
def isBlock : Content → Bool
  | paragraph _ => true
  | command .. => true
  | _ => false

def isInline : Content → Bool
  | group _ => true
  | command .. => true
  | _ => false

/-- Texts and commands, no two texts side by side, since they would be read as one. -/
def IsRun (pieces : List Content) : Prop :=
  pieces.all isPiece = true
    ∧ pieces.IsChain fun a b => ¬(a.isText = true ∧ b.isText = true)

/-- A run in square brackets is empty, or starts with a text. -/
def StartsInline (pieces : List Content) : Prop :=
  pieces = [] ∨ ∃ bytes rest, pieces = text bytes :: rest

/-- A paragraph starts with a text whose first byte is no blank. -/
def StartsParagraph (pieces : List Content) : Prop :=
  ∃ b bytes rest, pieces = text (b :: bytes) :: rest ∧ isBlank b = false

/-- A paragraph does not end in a carriage return, which would go with its line end. -/
def EndsParagraph (pieces : List Content) : Prop :=
  ∀ bytes, pieces.getLast? = some (text bytes) → bytes.getLast? ≠ some carriageReturn

end Content

mutual

/-- What is asked of a content wherever it stands; `blocks` tells whether arguments in braces are
allowed. -/
def Content.Fits (blocks : Bool) : Content → Prop
  | .group pieces =>
    Content.StartsInline pieces ∧ Content.IsRun pieces ∧ Content.FitsAll false pieces
  | .paragraph pieces =>
    Content.StartsParagraph pieces ∧ Content.EndsParagraph pieces ∧ Content.IsRun pieces
      ∧ Content.FitsAll false pieces
  -- Brackets of a text have to match within it, or the text would depend on what stands around it.
  | .text bytes => bytes ≠ [] ∧ tilde ∉ bytes ∧ lineFeed ∉ bytes ∧ Bracket.Balanced bytes
  | .command name args => name.all isLetter = true ∧ ContentArg.FitsAll blocks args

def Content.FitsAll (blocks : Bool) : List Content → Prop
  | [] => True
  | child :: rest => child.Fits blocks ∧ Content.FitsAll blocks rest

def ContentArg.Fits (blocks : Bool) : ContentArg → Prop
  | .block children =>
    blocks = true ∧ children.all Content.isBlock = true ∧ Content.FitsAll true children
  | .inline child => child.isInline = true ∧ child.Fits false
  | .ident letters => letters ≠ [] ∧ letters.all isLetter = true
  | .string raw => Quoted raw

def ContentArg.FitsAll (blocks : Bool) : List ContentArg → Prop
  | [] => True
  | arg :: rest => arg.Fits blocks ∧ ContentArg.FitsAll blocks rest

end

/-- The blocks are those of a document: each is a block by itself, and all that is in it fits. -/
structure IsContentDocument (blocks : List Content) : Prop where
  isBlock : blocks.all Content.isBlock = true
  fits : Content.FitsAll true blocks

/-! ## Reading a content off an arena -/

namespace Content

def ofArgument (source : Bytes) : Argument Content → ContentArg
  | .block children _ => .block children
  | .inline child _ => .inline child
  | .ident span => .ident (span.slice source)
  | .string span => .string (span.contents source)

/-- A node with its places replaced by the bytes there. Only a source tells what they are. -/
def ofNode (source : Bytes) : Node Content → Content
  | .group children => group children
  | .paragraph children => paragraph children
  | .text span => text (span.slice source)
  | .command name args => command (name.slice source) (args.map (ofArgument source))

/-- How a content is read off: no layer is refused. -/
def visit (source : Bytes) : Visit Content :=
  ⟨fun _ => .ok (), ofNode source⟩

end Content

/-- The content of the document in an arena, whose nodes are over a source. -/
def Arena.content (source : Bytes) (arena : Arena) : Except Failure Content :=
  arena.walk (Content.visit source)

end TildeMarkup
