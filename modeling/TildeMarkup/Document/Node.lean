import TildeMarkup.Span

/-!
# Nodes of a document

One layer of a document: a node over whatever stands for its children. With trees for children a
node is a tree (`Document/Tree`), with numbers it is an entry of an arena (`Document/Arena`), and
with results it is the input of one step of a fold. No node holds text: it holds spans, and the
bytes stay in the source.
-/

namespace TildeMarkup

/-- The four kinds of argument. The kind of an argument shows in the byte that it starts with. -/
inductive Kind where
  | block
  | inline
  | ident
  | string
  deriving DecidableEq, Repr

/-- An argument of a command, over children of type `α`. -/
inductive Argument (α : Type) where
  /-- In braces: any number of blocks. The span covers the braces. -/
  | block (children : List α) (span : Span)
  /-- In square brackets: one inline node. The span covers the brackets. -/
  | inline (child : α) (span : Span)
  /-- Bare letters. -/
  | ident (span : Span)
  /-- A quoted text. The span covers the quotes. -/
  | string (span : Span)
  deriving Repr

namespace Argument

variable {α β : Type}

/-- The kind of an argument. -/
def kind : Argument α → Kind
  | block .. => .block
  | inline .. => .inline
  | ident .. => .ident
  | string .. => .string

/-- The place of an argument in the source, its delimiters included. -/
def span : Argument α → Span
  | block _ span => span
  | inline _ span => span
  | ident span => span
  | string span => span

/-- The nodes inside an argument: any number in a block, one in a run, and none in letters or a string. -/
def children : Argument α → List α
  | block children _ => children
  | inline child _ => [child]
  | ident _ => []
  | string _ => []

/-- The same argument over other children. Its span and its kind stay. -/
def map (f : α → β) : Argument α → Argument β
  | block children span => .block (children.map f) span
  | inline child span => .inline (f child) span
  | ident span => .ident span
  | string span => .string span

/-- Replaces the children by the results of an action, from left to right. -/
def mapM {m : Type → Type} [Monad m] (f : α → m β) : Argument α → m (Argument β)
  | block children span => do return .block (← children.mapM f) span
  | inline child span => do return .inline (← f child) span
  | ident span => return .ident span
  | string span => return .string span

@[simp] theorem map_map {γ : Type} (f : α → β) (g : β → γ) (arg : Argument α) :
    (arg.map f).map g = arg.map (g ∘ f) := by
  cases arg <;> simp [map]

/-- Whatever is done to the children of an argument, it is of the kind that it was. -/
@[simp] theorem kind_map (f : α → β) (arg : Argument α) : (arg.map f).kind = arg.kind := by
  cases arg <;> rfl

@[simp] theorem span_map (f : α → β) (arg : Argument α) : (arg.map f).span = arg.span := by
  cases arg <;> rfl

@[simp] theorem children_map (f : α → β) (arg : Argument α) :
    (arg.map f).children = arg.children.map f := by
  cases arg <;> rfl

end Argument

/-- One layer of a document, over children of type `α`. -/
inductive Node (α : Type) where
  /-- A run of nodes without markup of its own: the whole document, or an inline run. -/
  | group (children : List α)
  /-- A run of nodes that is a paragraph. -/
  | paragraph (children : List α)
  /-- Bytes of the source, taken as they are. -/
  | text (span : Span)
  /-- A command: the span of its name, and its arguments. -/
  | command (name : Span) (args : List (Argument α))
  deriving Repr

namespace Node

variable {α β : Type}

/-- The nodes one level down, in document order. -/
def children : Node α → List α
  | group children => children
  | paragraph children => children
  | text _ => []
  | command _ args => args.flatMap Argument.children

/-- The same layer over other children. -/
def map (f : α → β) : Node α → Node β
  | group children => .group (children.map f)
  | paragraph children => .paragraph (children.map f)
  | text span => .text span
  | command name args => .command name (args.map (Argument.map f))

/-- Replaces the children by the results of an action, in document order. -/
def mapM {m : Type → Type} [Monad m] (f : α → m β) : Node α → m (Node β)
  | group children => do return .group (← children.mapM f)
  | paragraph children => do return .paragraph (← children.mapM f)
  | text span => return .text span
  | command name args => do return .command name (← args.mapM (Argument.mapM f))

@[simp] theorem children_map (f : α → β) (node : Node α) :
    (node.map f).children = node.children.map f := by
  cases node with
  | command name args => simp [map, children, List.flatMap_map, List.map_flatMap]
  | _ => rfl

/-- To replace the children twice is to replace them once, by both functions together. -/
theorem map_map {γ : Type} (f : α → β) (g : β → γ) (node : Node α) :
    (node.map f).map g = node.map (g ∘ f) := by
  cases node with
  | command name args => simp [map, Function.comp_def]
  | _ => simp [map]

/-- The layer by itself, without what is below it. -/
def shape (node : Node α) : Node Unit :=
  node.map fun _ => ()

/-- What is below a layer has no part in its shape. -/
@[simp] theorem shape_map (f : α → β) (node : Node α) : (node.map f).shape = node.shape := by
  cases node with
  | command name args => simp [shape, map, Argument.map_map, Function.comp_def]
  | _ => simp [shape, map, Function.comp_def]

end Node

end TildeMarkup
