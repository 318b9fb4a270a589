import TildeMarkup.Proofs.Balance
import TildeMarkup.Document.Tree

/-!
# Spellings

A spelling is a document with all that its source holds: what the tree keeps (texts, names,
arguments) and what it drops (blanks, line ends, commas, the choice between a list and a single
argument). A source and its tree are two views of one spelling:

* `Part.bytes`, `Arg.bytes`: the source of it, byte by byte.
* `Part.trees`, `Arg.arguments`: the nodes that it stands for, when its first byte is at a given
  offset. A blank stands for no node and every other part for one.

A source is read by taking its bytes, so properties of a parsed tree are proved about spellings, by
induction over their structure, and carried over to the reader once and for all.
-/

namespace TildeMarkup.Spelling

/-- What ends a run of text: nothing, when a closer or the end of the source comes next, or a line
end. -/
inductive Ending where
  | none
  | lineFeed
  | returnLineFeed
  deriving DecidableEq, Repr

/-- The bytes of a line end. They belong to no text. -/
def Ending.bytes : Ending → Bytes
  | none => []
  | lineFeed => [TildeMarkup.lineFeed]
  | returnLineFeed => [carriageReturn, TildeMarkup.lineFeed]

mutual

/-- A part of a document as it is written, from which its bytes and its nodes can be computed. -/
inductive Part where
  /-- A blank byte between blocks. -/
  | blank (b : UInt8)
  /-- A piece of text. -/
  | text (bytes : Bytes)
  /-- A run of texts and commands: a paragraph, or the inline run in square brackets. -/
  | run (bracketed : Bool) (pieces : List Part) (ending : Ending)
  /-- A command: its name, the blanks after it, and its arguments, in a list or a single one. -/
  | call (name gap : Bytes) (listed : Bool) (args : List Arg)

/-- An argument as it is written, or what stands between the arguments of a list. -/
inductive Arg where
  | blank (b : UInt8)
  | comma
  | ident (letters : Bytes)
  | string (raw : Bytes)
  | inline (part : Part)
  | block (parts : List Part)

end

/-! ## The source of a spelling -/

mutual

/-- The source of a part. A command writes its tilde, its name and its brackets. -/
def Part.bytes : Part → Bytes
  | .blank b => [b]
  | .text bytes => bytes
  | .run _ pieces ending => Part.bytesAll pieces ++ ending.bytes
  | .call name gap listed args =>
    tilde :: (name ++ (gap ++
      if listed then Bracket.round.opener :: (Arg.bytesAll args ++ [Bracket.round.closer])
      else Arg.bytesAll args))

/-- The source of parts one after the other, with nothing in between. -/
def Part.bytesAll : List Part → Bytes
  | [] => []
  | part :: rest => part.bytes ++ Part.bytesAll rest

/-- The source of an argument. Strings and scopes write their delimiters. -/
def Arg.bytes : Arg → Bytes
  | .blank b => [b]
  | .comma => [TildeMarkup.comma]
  | .ident letters => letters
  | .string raw => quote :: (raw ++ [quote])
  | .inline part => Bracket.square.opener :: (part.bytes ++ [Bracket.square.closer])
  | .block parts => Bracket.curly.opener :: (Part.bytesAll parts ++ [Bracket.curly.closer])

/-- The source of arguments one after the other; the commas are among them. -/
def Arg.bytesAll : List Arg → Bytes
  | [] => []
  | arg :: rest => arg.bytes ++ Arg.bytesAll rest

end

theorem Part.bytesAll_append (front back : List Part) :
    Part.bytesAll (front ++ back) = Part.bytesAll front ++ Part.bytesAll back := by
  induction front with
  | nil => rfl
  | cons part rest ih => rw [List.cons_append, bytesAll, bytesAll, ih, List.append_assoc]

theorem Arg.bytesAll_append (front back : List Arg) :
    Arg.bytesAll (front ++ back) = Arg.bytesAll front ++ Arg.bytesAll back := by
  induction front with
  | nil => rfl
  | cons arg rest ih => rw [List.cons_append, bytesAll, bytesAll, ih, List.append_assoc]

@[simp] theorem Part.bytesAll_singleton (part : Part) : Part.bytesAll [part] = part.bytes := by
  rw [bytesAll, bytesAll, List.append_nil]

@[simp] theorem Arg.bytesAll_singleton (arg : Arg) : Arg.bytesAll [arg] = arg.bytes := by
  rw [bytesAll, bytesAll, List.append_nil]

/-- A command begins with its tilde, whatever its arguments are. -/
theorem Part.bytes_call (name gap : Bytes) (listed : Bool) (args : List Arg) :
    (Part.call name gap listed args).bytes = tilde :: (Part.call name gap listed args).bytes.tail :=
  rfl

/-! ## The nodes of a spelling -/

/-- The offset at which the arguments of a command start, when its tilde is at `n`: after the name,
the blanks and the parenthesis. -/
def argsStart (n : Nat) (name gap : Bytes) (listed : Bool) : Nat :=
  n + 1 + name.length + gap.length + if listed then 1 else 0

mutual

/-- The nodes of a part that starts at an offset. Blanks have none, and everything else has one. -/
def Part.trees (n : Nat) : Part → List Tree
  | .blank _ => []
  | .text bytes => [.node (.text ⟨n, n + bytes.length⟩)]
  | .run true pieces _ => [.node (.group (Part.treesAll n pieces))]
  | .run false pieces _ => [.node (.paragraph (Part.treesAll n pieces))]
  | .call name gap listed args =>
    [.node (.command ⟨n + 1, n + 1 + name.length⟩
      (Arg.argumentsAll (argsStart n name gap listed) args))]

/-- The nodes of parts one after the other, the first of which starts at an offset. -/
def Part.treesAll (n : Nat) : List Part → List Tree
  | [] => []
  | part :: rest => part.trees n ++ Part.treesAll (n + part.bytes.length) rest

/-- The arguments of an argument that starts at an offset: itself, or none where it is a blank or a
comma. -/
def Arg.arguments (n : Nat) : Arg → List (Argument Tree)
  | .blank _ => []
  | .comma => []
  | .ident letters => [.ident ⟨n, n + letters.length⟩]
  | .string raw => [.string ⟨n, n + raw.length + 2⟩]
  | .inline part =>
    (part.trees (n + 1)).map fun child => .inline child ⟨n, n + part.bytes.length + 2⟩
  | .block parts =>
    [.block (Part.treesAll (n + 1) parts) ⟨n, n + (Part.bytesAll parts).length + 2⟩]

/-- The arguments of what stands in a list, when it starts at an offset. -/
def Arg.argumentsAll (n : Nat) : List Arg → List (Argument Tree)
  | [] => []
  | arg :: rest => arg.arguments n ++ Arg.argumentsAll (n + arg.bytes.length) rest

end

/-- The nodes of parts one after the other, where the second ones start behind the bytes of the first. -/
theorem Part.treesAll_append (n : Nat) (front back : List Part) :
    Part.treesAll n (front ++ back)
      = Part.treesAll n front ++ Part.treesAll (n + (Part.bytesAll front).length) back := by
  induction front generalizing n with
  | nil => rfl
  | cons part rest ih =>
    rw [List.cons_append, treesAll, treesAll, ih, bytesAll, List.length_append, List.append_assoc,
      Nat.add_assoc]

theorem Arg.argumentsAll_append (n : Nat) (front back : List Arg) :
    Arg.argumentsAll n (front ++ back)
      = Arg.argumentsAll n front ++ Arg.argumentsAll (n + (Arg.bytesAll front).length) back := by
  induction front generalizing n with
  | nil => rfl
  | cons arg rest ih =>
    rw [List.cons_append, argumentsAll, argumentsAll, ih, bytesAll, List.length_append,
      List.append_assoc, Nat.add_assoc]

@[simp] theorem Part.treesAll_singleton (n : Nat) (part : Part) :
    Part.treesAll n [part] = part.trees n := by
  rw [treesAll, treesAll, List.append_nil]

@[simp] theorem Arg.argumentsAll_singleton (n : Nat) (arg : Arg) :
    Arg.argumentsAll n [arg] = arg.arguments n := by
  rw [argumentsAll, argumentsAll, List.append_nil]

/-- The number of bytes of a command: where its arguments start, what they take, and the closing
parenthesis. -/
theorem Part.length_bytes_call (n : Nat) (name gap : Bytes) (listed : Bool) (args : List Arg) :
    n + (Part.call name gap listed args).bytes.length
      = argsStart n name gap listed + (Arg.bytesAll args).length + if listed then 1 else 0 := by
  cases listed <;>
    simp only [bytes, argsStart, Bool.false_eq_true, if_true, if_false, List.length_cons,
      List.length_append, List.length_nil] <;> omega

/-- An argument in square brackets ends two bytes behind its part, one for either bracket. -/
theorem Arg.length_bytes_inline (n : Nat) (part : Part) :
    n + (Arg.inline part).bytes.length = n + part.bytes.length + 2 := by
  rw [bytes, List.length_cons, List.length_append, List.length_singleton]
  omega

theorem Arg.length_bytes_block (n : Nat) (parts : List Part) :
    n + (Arg.block parts).bytes.length = n + (Part.bytesAll parts).length + 2 := by
  rw [bytes, List.length_cons, List.length_append, List.length_singleton]
  omega

theorem Arg.length_bytes_string (n : Nat) (raw : Bytes) :
    n + (Arg.string raw).bytes.length = n + raw.length + 2 := by
  rw [bytes, List.length_cons, List.length_append, List.length_singleton]
  omega

end TildeMarkup.Spelling
