import TildeMarkup.Reader.State
import TildeMarkup.Fault

/-!
# One step of a reader

What each byte means in each mode. Every step takes exactly one byte: it gives the reader after the
byte, or the cause for which the source is refused at that byte. So a reader depends on nothing but
the bytes that it has taken, it always moves on, and a fault is found at the first byte that no
source can have there.
-/

namespace TildeMarkup.Reader

/-- The open brackets after a byte has been passed. An opener is put on the stack; a closer has to
match its top. -/
def cross (opened : List Bracket) (b : UInt8) : Except Cause (List Bracket) :=
  match Bracket.ofOpener? b, Bracket.ofCloser? b with
  | some kind, _ => .ok (kind :: opened)
  | none, none => .ok opened
  | none, some kind =>
    match opened with
    | [] => .error (.unbalanced none [b])
    | top :: rest =>
      if top = kind then .ok rest else .error (.unbalanced (some [top.closer]) [b])

/-- The byte closes the enclosing scope: it is a closer, and nothing is open above the scope. -/
def endsScope (r : Reader) (b : UInt8) : Bool :=
  (Bracket.ofCloser? b).isSome && r.opened.length == r.scope.depth

/-- The reader after a command whose last byte is the one at hand. A command within a run leaves the run
open. -/
def finishCall (r : Reader) (call : Call) : Reader :=
  let command : Tree := .node (.command call.name call.args.reverse)
  match call.place with
  | .alone => { r with scope := r.scope.add command, mode := .ready }
  | .within pieces => { r with mode := .text (command :: pieces) (r.offset + 1) false }

/-- The reader after an argument whose last byte is the one at hand. An argument outside a list is
the only one of its command. -/
def finishArgument (r : Reader) (call : Call) (arg : Argument Tree) : Reader :=
  let call := { call with args := arg :: call.args }
  if call.listed then { r with mode := .next call } else r.finishCall call

/-- Takes the `[` of an argument. The scope remembers how high the stack is with this bracket on it. -/
def openBrackets (r : Reader) (call : Call) : Reader :=
  { r with
    opened := .square :: r.opened
    scope := .brackets r.scope call r.offset (r.opened.length + 1) none
    mode := .ready }

/-- Takes the `{` of an argument. Like a square bracket it is remembered by its height. -/
def openBraces (r : Reader) (call : Call) : Reader :=
  { r with
    opened := .curly :: r.opened
    scope := .braces r.scope call r.offset (r.opened.length + 1) []
    mode := .ready }

/-- Braces are allowed as an argument of a command that stands by itself as a block. -/
def allowsBraces (r : Reader) (place : Place) : Bool :=
  match place with
  | .alone => r.scope.allowsBlocks
  | .within _ => false

/-- Takes the `)` of a list. It has to match what is open, as any closer of prose has. -/
def closeList (r : Reader) (call : Call) (b : UInt8) : Except Cause Reader := do
  let opened ← cross r.opened b
  return { r with opened }.finishCall call

/-- Takes a byte that closes the enclosing scope, or refuses it for the one that does. -/
def closeScope (r : Reader) (b : UInt8) : Except Cause Reader :=
  match r.scope with
  | .document _ => .error (.unbalanced none [b])
  | .braces outer call start _ blocks =>
    if b == Bracket.curly.closer then do
      let opened ← cross r.opened b
      return { r with opened, scope := outer }.finishArgument call
        (.block blocks.reverse ⟨start, r.offset + 1⟩)
    else .error (.expected [Bracket.curly.closer] [b])
  | .brackets outer call start _ content =>
    if b == Bracket.square.closer then do
      let opened ← cross r.opened b
      return { r with opened, scope := outer }.finishArgument call
        (.inline (content.getD (.node (.group []))) ⟨start, r.offset + 1⟩)
    else .error (.expected [Bracket.square.closer] [b])

/-- The reader after a run of text that ends before the byte at hand. The run becomes a part of the scope
around it. -/
def endRun (r : Reader) (pieces : List Tree) : Reader :=
  { r with scope := r.scope.addRun pieces, mode := .ready }

/-- Takes a byte of a run of text. The run ends with its line, or before the closer of the scope. A
carriage return before the line feed is not part of it. -/
def inText (r : Reader) (pieces : List Tree) (start : Nat) (afterReturn : Bool) (b : UInt8) :
    Except Cause Reader :=
  if b == tilde then
    .ok { r with mode := .name (.within (addText pieces start r.offset)) (r.offset + 1) }
  else if b == lineFeed then
    -- Only the one carriage return right before the line feed is left out.
    .ok (r.endRun (addText pieces start (if afterReturn then r.offset - 1 else r.offset)))
  else if r.endsScope b then
    -- The byte is taken once, by the scope that it closes and not by the run.
    (r.endRun (addText pieces start r.offset)).closeScope b
  else do
    let opened ← cross r.opened b
    return { r with opened, mode := .text pieces start (b == carriageReturn) }

/-- Takes a byte between the parts of the enclosing scope. Blanks between blocks are skipped. Square
brackets hold one part, and nothing but the closer may follow it. -/
def inReady (r : Reader) (b : UInt8) : Except Cause Reader :=
  match r.scope with
  -- The part is there, so whatever comes has to close the brackets.
  | .brackets _ _ _ _ (some _) => r.closeScope b
  | .brackets _ _ _ _ none =>
    if b == tilde then .ok { r with mode := .name .alone (r.offset + 1) }
    else r.inText [] r.offset false b
  | _ =>
    if isBlank b then .ok r
    else if b == tilde then .ok { r with mode := .name .alone (r.offset + 1) }
    else if r.endsScope b then r.closeScope b
    else r.inText [] r.offset false b

/-- Takes a byte after a name: blanks, or the start of the arguments. -/
def inHead (r : Reader) (place : Place) (name : Span) (b : UInt8) : Except Cause Reader :=
  if isBlank b then .ok { r with mode := .head place name }
  else if b == Bracket.round.opener then
    .ok { r with opened := .round :: r.opened, mode := .list ⟨place, name, true, []⟩ true }
  else if b == Bracket.square.opener then .ok (r.openBrackets ⟨place, name, false, []⟩)
  else if b == Bracket.curly.opener && r.allowsBraces place then
    .ok (r.openBraces ⟨place, name, false, []⟩)
  else .error (.expectedArguments [b])

/-- Takes a byte of a list where an argument may start, or the list end. -/
def inList (r : Reader) (call : Call) (b : UInt8) : Except Cause Reader :=
  if isBlank b then .ok { r with mode := .list call false }
  else if b == Bracket.round.closer then r.closeList call b
  else if b == Bracket.square.opener then .ok (r.openBrackets call)
  else if b == Bracket.curly.opener && r.allowsBraces call.place then .ok (r.openBraces call)
  else if b == quote then .ok { r with mode := .string call r.offset false }
  else if isLetter b then .ok { r with mode := .ident call r.offset }
  else .error (.expectedArguments [b])

/-- Takes a byte of a list after an argument: blanks, a comma, or the end of the list. -/
def inNext (r : Reader) (call : Call) (b : UInt8) : Except Cause Reader :=
  if isBlank b then .ok { r with mode := .next call }
  else if b == Bracket.round.closer then r.closeList call b
  else if b == comma then .ok { r with mode := .list call true }
  else .error (.expected [comma] [b])

/-- Takes a byte, without moving on. -/
def take (r : Reader) (b : UInt8) : Except Cause Reader :=
  match r.mode with
  | .ready => r.inReady b
  | .text pieces start afterReturn => r.inText pieces start afterReturn b
  | .name place start =>
    -- A name that is cut short by this byte still is a name, be it an empty one.
    if isLetter b then .ok r else r.inHead place ⟨start, r.offset⟩ b
  | .head place name => r.inHead place name b
  | .list call _ => r.inList call b
  | .ident call start =>
    if isLetter b then .ok r
    else r.inNext { call with args := .ident ⟨start, r.offset⟩ :: call.args } b
  | .string call start escaped =>
    if b == quote && !escaped then
      .ok (r.finishArgument call (.string ⟨start, r.offset + 1⟩))
    -- A backslash keeps a quote only if it is right before it, so two of them still keep it.
    else .ok { r with mode := .string call start (b == backslash) }
  | .next call => r.inNext call b

/-- Takes a byte and moves past it. A fault is at that byte. -/
def step (r : Reader) (b : UInt8) : Except Fault Reader :=
  match r.take b with
  | .ok next => .ok { next with offset := r.offset + 1 }
  | .error cause => .error ⟨cause, ⟨r.offset, r.offset + 1⟩⟩

/-- A step moves on by one byte. -/
theorem offset_of_step {r next : Reader} {b : UInt8} (h : r.step b = .ok next) :
    next.offset = r.offset + 1 := by
  unfold step at h
  split at h
  · cases h
    rfl
  · cases h

/-- A fault is at the byte that was to be taken. -/
theorem span_of_step {r : Reader} {b : UInt8} {fault : Fault} (h : r.step b = .error fault) :
    fault.span = ⟨r.offset, r.offset + 1⟩ := by
  unfold step at h
  split at h
  · cases h
  · cases h
    rfl

/-- The document, if the source may end where the scope is complete but for its closer. Only the whole
document needs none. -/
def finishScope (scope : Scope) : Except Cause Tree :=
  match scope with
  | .document blocks => .ok (.node (.group blocks.reverse))
  | .braces .. => .error (.expected [Bracket.curly.closer] [])
  | .brackets .. => .error (.expected [Bracket.square.closer] [])

/-- The document, if the source may end here. -/
def finish (r : Reader) : Except Fault Tree :=
  let outcome : Except Cause Tree :=
    match r.mode with
    | .ready => finishScope r.scope
    | .text pieces start _ => finishScope (r.scope.addRun (addText pieces start r.offset))
    | .name .. => .error (.expectedArguments [])
    | .head .. => .error (.expectedArguments [])
    | .list _ fresh =>
      -- A list that ends the source right behind its bracket or comma wants to be closed; behind a blank,
      -- an argument is missing.
      .error (if fresh then .expected [Bracket.round.closer] [] else .expectedArguments [])
    | .ident .. => .error (.expected [comma] [])
    | .string .. => .error (.expected [quote] [])
    | .next .. => .error (.expected [comma] [])
  outcome.mapError fun cause => ⟨cause, ⟨r.offset, r.offset⟩⟩

/-- Whatever the cause is, the fault is at the place that it is reported for. -/
theorem span_of_mapError {place : Span} {outcome : Except Cause Tree} {fault : Fault}
    (h : outcome.mapError (fun cause => ⟨cause, place⟩) = .error fault) : fault.span = place := by
  cases outcome with
  | error cause =>
    cases h
    rfl
  | ok tree => cases h

/-- A fault at the end of the source is an empty span there. -/
theorem span_of_finish {r : Reader} {fault : Fault} (h : r.finish = .error fault) :
    fault.span = ⟨r.offset, r.offset⟩ :=
  span_of_mapError h

end TildeMarkup.Reader
