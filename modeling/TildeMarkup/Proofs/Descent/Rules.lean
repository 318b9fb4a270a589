import TildeMarkup.Reader.Step
import TildeMarkup.Document.Arena

/-!
# Reading by descent

The language once more, as rules that call each other: a rule for each construct, which moves a cursor
over what it takes, and leaves the constructs inside to their own rules. Four of the rules are loops. What
a loop does from one stop test to the next is a function of its own, its turn, which tells whether to go
on or to leave the loop.

The rules hand over each node to a builder as soon as they know what is in it, and from then on they only
have what the builder calls it by. There are two builders. `Rule` itself makes trees, and calls a node by
its tree. `Pushing` has an arena beside the cursor, pushes each node on it, and calls a node by its number.
Whatever is said of rules without further mention is said of those that make trees.

Nothing in this module says that a rule comes to an end. So calls are counted: with `rulesTo source n` they
nest no deeper than `n`, a further turn of a loop being one of them, and `Stop.exhausted` is what comes of
a deeper one.
-/

namespace TildeMarkup.Descent

/-- Where the rules are. A closer belongs to an argument if nothing is open above the height that the
argument has put on the frames. -/
structure Cursor where
  offset : Nat
  /-- The brackets that are open, the innermost first. -/
  opened : List Bracket
  /-- The heights of the stack of open brackets at which the arguments around the cursor were opened, the
  innermost first, and that of the document. -/
  frames : List Nat

namespace Cursor

/-- The cursor in front of a document. The lowest height is the one of the document itself, which no
closer ends. -/
def initial : Cursor := ⟨0, [], [0]⟩

/-- The byte closes the innermost argument around the cursor. -/
def closes (c : Cursor) (b : UInt8) : Bool :=
  (Bracket.ofCloser? b).isSome && c.opened.length == c.frames.headD 0

end Cursor

/-- Why a rule stops without a result. A fault is told for good, while an exhausted rule may have one with
more calls. -/
inductive Stop where
  /-- The source is at fault. -/
  | fault (fault : Fault)
  /-- Calls are nested too deep. -/
  | exhausted
  deriving DecidableEq, Repr

/-- A rule moves the cursor, and has a result, or it stops. What it has moved past is not looked at
again. -/
abbrev Rule (α : Type) := StateT Cursor (Except Stop) α

/-- What a turn of a loop comes to. The loop is not called from within its turn, so that its steps can be
counted. -/
inductive Turn (σ α : Type) where
  /-- The loop goes on, from this state. -/
  | again (state : σ)
  /-- The loop is left. -/
  | exit (result : α)

/-! ## Builders -/

/-- A monad in which nodes are made. `put` makes the node of one layer, whose children are called what the
builder has called them by, and gives what the node is called by from then on. -/
class Builder (m : Type → Type) (ι : outParam Type) where
  /-- Makes a node. -/
  put : Node ι → m ι

/-- Makes a node. -/
def put {m : Type → Type} {ι : Type} [Builder m ι] (layer : Node ι) : m ι :=
  Builder.put layer

/-- A rule of trees makes a node by writing down its tree. -/
instance : Builder Rule Tree :=
  ⟨fun layer => return .node layer⟩

/-- A rule with the arena of all nodes made so far beside the cursor. Where such a rule stops, its arena is
gone with it, as the one result of reading is then the reason. -/
abbrev Pushing (α : Type) := StateT Arena Rule α

/-- A rule with an arena makes a node by pushing it: the node is the last one then, and has the number that
was free. -/
instance : Builder Pushing Nat :=
  ⟨fun layer arena => return arena.push layer⟩

/-- The rules that a rule may call, over some builder: one for each place at which the language is
recursive. -/
structure RulesOver (m : Type → Type) (ι : Type) where
  /-- The rest of a run of text, after some pieces (the last of them first), with the text piece at the
  cursor started at an offset. -/
  text : List ι × Nat → m (List ι)
  /-- A command, with an argument in braces or without. -/
  command : Bool → m ι
  /-- The rest of a list, after some arguments. -/
  list : Bool → List (Argument ι) → m (List (Argument ι))
  /-- The rest of what is in braces, after some blocks. -/
  braces : List ι → m (List ι)
  /-- The rest of the document, after some blocks. -/
  document : List ι → m (List ι)

/-- The rules of trees that a rule of trees may call. -/
abbrev Rules := RulesOver Rule Tree

/-! ## The cursor -/

section Rules

variable (source : Bytes)

/-- The offset of the cursor. -/
def here : Rule Nat := fun c => .ok (c.offset, c)

/-- The byte at the cursor, if it is not at the end. -/
def peek : Rule (Option UInt8) := fun c => .ok (source[c.offset]?, c)

/-- The brackets that are open, the innermost first. -/
def opened : Rule (List Bracket) := fun c => .ok (c.opened, c)

/-- The source is at fault at the cursor: at the byte there, or at the end, where the span is empty. -/
def refuse {α : Type} (cause : Cause) : Rule α := fun c =>
  .error (.fault ⟨cause, ⟨c.offset, min (c.offset + 1) source.length⟩⟩)

/-- Calls are nested as deep as they may be, so this one is not made. -/
def exhausted {α : Type} : Rule α := fun _ => .error .exhausted

/-- Moves on by a byte, whatever it is. Within a string brackets are not crossed. -/
def skip : Rule Unit := fun c => .ok ((), { c with offset := c.offset + 1 })

/-- Moves on by a byte, past a bracket as it may be crossed. -/
def bump : Rule Unit := fun c =>
  match source[c.offset]? with
  | none => skip c
  | some b =>
    match Reader.cross c.opened b with
    | .ok opened => .ok ((), { c with offset := c.offset + 1, opened })
    | .error cause => refuse source cause c

/-- Moves on as long as the bytes are of a kind. -/
def pass (kind : UInt8 → Bool) : Rule Unit := fun c =>
  .ok ((), { c with offset := c.offset + ((source.drop c.offset).takeWhile kind).length })

/-- Moves past one particular byte, and refuses whatever else stands there. -/
def expect (wanted : UInt8) : Rule Unit := do
  match ← peek source with
  | none => refuse source (.expected [wanted] [])
  | some b => if b = wanted then bump source else refuse source (.expected [wanted] [b])

/-- Whether a byte closes the innermost argument around the cursor. -/
def closesFrame (b : UInt8) : Rule Bool := fun c => .ok (c.closes b, c)

/-- An argument has been opened: the stack as it is now is what nothing in there may close. -/
def enter : Rule Unit := modify fun c => { c with frames := c.opened.length :: c.frames }

/-- What the innermost argument holds has been taken, so its height no longer matters. -/
def leave : Rule Unit := modify fun c => { c with frames := c.frames.tail }

/-- How many bytes stand in front of the quote that ends a string, which has no backslash before it, or of
the end. -/
def stringLength : (previous : UInt8) → Bytes → Nat
  | _, [] => 0
  | previous, b :: rest =>
    if b = quote ∧ previous ≠ backslash then 0 else stringLength b rest + 1

/-- Moves on to the end of a string, which is the quote that ends it or the end of the source. -/
def passString : Rule Unit := fun c =>
  .ok ((), { c with offset := c.offset + stringLength quote (source.drop c.offset) })

/-- What stands behind an argument of a list: a comma, unless the list ends there. -/
def separator : Rule Unit := do
  if (← peek source) = some Bracket.round.closer then return ()
  else expect source comma

/-! ## Loops -/

variable {m : Type → Type} {ι : Type} [Monad m] [MonadLiftT Rule m] [Builder m ι] (rules : RulesOver m ι)

/-- What is in a bracket that is an argument. Nothing below the bracket is closed in there. -/
def framed {α : Type} (rule : m α) : m α := do
  enter
  let result ← rule
  leave
  return result

/-- A loop, by its turns. The rest of the loop is a call like any other. -/
def loop {σ α : Type} (turn : σ → m (Turn σ α)) (rest : σ → m α) (state : σ) : m α := do
  match ← turn state with
  | .again next => rest next
  | .exit result => return result

/-- The pieces of a run with the text between two offsets behind them, which is no piece if it is empty. -/
def endText (pieces : List ι) (start stop : Nat) : m (List ι) := do
  if start < stop then
    let piece ← put (.text ⟨start, stop⟩)
    return piece :: pieces
  else return pieces

/-- A turn in a run of text: a byte, or a command. The run ends with its line, or before the closer of the
argument around it. A carriage return before the line feed is not part of it. -/
def textTurn (run : List ι × Nat) : m (Turn (List ι × Nat) (List ι)) := do
  let offset ← here
  match ← peek source with
  | none => return .exit (← endText run.1 run.2 offset)
  | some b =>
    if b = tilde then
      -- the text in front of a command is made before anything in the command is
      let pieces ← endText run.1 run.2 offset
      let command ← rules.command false
      let start ← here
      return .again (command :: pieces, start)
    else if b = lineFeed then
      let afterReturn := (source.take offset).getLast? = some carriageReturn
      let pieces ← endText run.1 run.2 (if afterReturn then offset - 1 else offset)
      bump source
      return .exit pieces
    else if ← closesFrame b then
      return .exit (← endText run.1 run.2 offset)
    else
      bump source
      return .again run

/-- A command by itself, or a line of text: a paragraph where there are blocks, and a group in square
brackets. -/
def part (blocks : Bool) : m ι := do
  if (← peek source) = some tilde then rules.command blocks
  else
    let start ← here
    let pieces ← rules.text ([], start)
    put (if blocks then .paragraph pieces.reverse else .group pieces.reverse)

/-- A turn in braces: blanks, then a block. The closer of the braces is left to whoever opened them. -/
def bracesTurn (blocks : List ι) : m (Turn (List ι) (List ι)) := do
  pass source isBlank
  match ← peek source with
  | none => return .exit blocks
  | some b =>
    if ← closesFrame b then return .exit blocks
    else
      let block ← part source rules true
      return .again (block :: blocks)

/-- A turn in a document: blanks, then a block. Where nothing is open, a closer has no owner. -/
def documentTurn (blocks : List ι) : m (Turn (List ι) (List ι)) := do
  pass source isBlank
  match ← peek source with
  | none => return .exit blocks
  | some b =>
    if (Bracket.ofCloser? b).isSome ∧ (← opened) = [] then refuse source (.unbalanced none [b])
    else
      let block ← part source rules true
      return .again (block :: blocks)

/-! ## Arguments -/

/-- An argument in brackets, of what a rule takes in there. -/
def enclosed {α : Type} (closer : UInt8) (rule : m α) (form : α → Span → Argument ι) :
    m (Argument ι) := do
  let start ← here
  bump source
  let content ← framed rule
  expect source closer
  let stop ← here
  return form content ⟨start, stop⟩

/-- An argument in square brackets, of one part. -/
def bracketed : m (Argument ι) :=
  enclosed source Bracket.square.closer (part source rules false) .inline

/-- An argument in braces. -/
def braced : m (Argument ι) :=
  enclosed source Bracket.curly.closer (rules.braces []) fun blocks span => .block blocks.reverse span

/-- An argument of letters, as many as there are. -/
def ident : m (Argument ι) := do
  let start ← here
  pass source isLetter
  let stop ← here
  return .ident ⟨start, stop⟩

/-- An argument in quotes. What is in there is not looked at. -/
def string : m (Argument ι) := do
  let start ← here
  skip
  passString source
  match ← peek source with
  | none => refuse source (.expected [quote] [])
  | some _ =>
    skip
    let stop ← here
    return .string ⟨start, stop⟩

/-- An argument of a list, by the byte that it starts with. -/
def argument (blocks : Bool) : m (Argument ι) := do
  match ← peek source with
  | none => refuse source (.expectedArguments [])
  | some b =>
    if b = Bracket.square.opener then bracketed source rules
    else if b = Bracket.curly.opener ∧ blocks then braced source rules
    else if b = quote then string source
    else if isLetter b then ident source
    else refuse source (.expectedArguments [b])

/-- A turn in a list: blanks, then an argument and what stands behind it. -/
def listTurn (blocks : Bool) (args : List (Argument ι)) :
    m (Turn (List (Argument ι)) (List (Argument ι))) := do
  -- At the end of the source the list is left to the closer that is missing.
  if (← peek source) = none then return .exit args
  else
    pass source isBlank
    if (← peek source) = some Bracket.round.closer then return .exit args
    else
      let arg ← argument source rules blocks
      pass source isBlank
      separator source
      return .again (arg :: args)

/-- The arguments of a command: a list, or a single one in brackets. -/
def arguments (blocks : Bool) : m (List (Argument ι)) := do
  match ← peek source with
  | none => refuse source (.expectedArguments [])
  | some b =>
    if b = Bracket.round.opener then
      bump source
      let args ← rules.list blocks []
      expect source Bracket.round.closer
      return args.reverse
    else if b = Bracket.square.opener then
      let arg ← bracketed source rules
      return [arg]
    else if b = Bracket.curly.opener ∧ blocks then
      let arg ← braced source rules
      return [arg]
    else refuse source (.expectedArguments [b])

/-- A command, from its tilde on. The node is made last, behind all that its arguments hold. -/
def command (blocks : Bool) : m ι := do
  bump source
  let start ← here
  pass source isLetter
  let stop ← here
  pass source isBlank
  let args ← arguments source rules blocks
  put (.command ⟨start, stop⟩ args)

end Rules

/-! ## All rules -/

section All

variable {m : Type → Type} {ι : Type} [Monad m] [MonadLiftT Rule m] [Builder m ι]

/-- The rules, with calls of some rules. A command is the one rule without a loop around it. -/
def RulesOver.next (source : Bytes) (rules : RulesOver m ι) : RulesOver m ι where
  text := loop (textTurn source rules) rules.text
  command := Descent.command source rules
  list blocks := loop (listTurn source rules blocks) (rules.list blocks)
  braces := loop (bracesTurn source rules) rules.braces
  document := loop (documentTurn source rules) rules.document

/-- The rules over some builder, with calls nested to some depth. -/
def rulesTo (source : Bytes) : (depth : Nat) → RulesOver m ι
  | 0 => ⟨fun _ => exhausted, fun _ => exhausted, fun _ _ => exhausted, fun _ => exhausted,
      fun _ => exhausted⟩
  | depth + 1 => (rulesTo source depth).next source

/-- A whole document, as a group of its blocks. Its node is the last one to be made. -/
def RulesOver.whole (rules : RulesOver m ι) : m ι := do
  let blocks ← rules.document []
  put (.group blocks.reverse)

end All

/-- The rules of trees, with calls nested to some depth. -/
abbrev rules (source : Bytes) (depth : Nat) : Rules := rulesTo source depth

/-- The tree of a source, by the rules that make trees. -/
def parse (source : Bytes) (depth : Nat) : Except Stop Tree := do
  let (tree, _) ← (rules source depth).whole Cursor.initial
  return tree

/-- The arena of a source, by rules that push. The last node to be pushed is the document, and the root. -/
def parseArena (source : Bytes) (depth : Nat) : Except Stop Arena := do
  let pushing : RulesOver Pushing Nat := rulesTo source depth
  let ((root, arena), _) ← pushing.whole Arena.empty Cursor.initial
  return { arena with root }

end TildeMarkup.Descent
