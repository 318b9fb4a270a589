import TildeMarkup.Proofs.Document.Marks

/-!
# Documents over another source

The document of one source, read as that of another: every span is replaced by the one that it has
there. The nodes and their numbers stay as they are (`Tree.toArena_respan`). What a walk makes of the
document it makes of the other one, as long as it makes the same of every layer by itself
(`Tree.walk_respan`).
-/

namespace TildeMarkup

variable {α β : Type} {m : Type → Type} [Monad m] [LawfulMonad m]

namespace Argument

/-- The argument with its own span replaced, and what it holds left as it is. -/
def respan (f : Span → Span) : Argument α → Argument α
  | block children span => .block children (f span)
  | inline child span => .inline child (f span)
  | ident span => .ident (f span)
  | string span => .string (f span)

@[simp] theorem kind_respan (f : Span → Span) (arg : Argument α) :
    (arg.respan f).kind = arg.kind := by
  cases arg <;> rfl

@[simp] theorem span_respan (f : Span → Span) (arg : Argument α) :
    (arg.respan f).span = f arg.span := by
  cases arg <;> rfl

@[simp] theorem children_respan (f : Span → Span) (arg : Argument α) :
    (arg.respan f).children = arg.children := by
  cases arg <;> rfl

theorem map_respan (f : Span → Span) (g : α → β) (arg : Argument α) :
    (arg.respan f).map g = (arg.map g).respan f := by
  cases arg <;> rfl

theorem mapM_respan (f : Span → Span) (g : α → m β) (arg : Argument α) :
    (arg.respan f).mapM g = respan f <$> arg.mapM g := by
  cases arg <;> simp [respan, mapM]

end Argument

namespace Node

/-- The layer with its spans replaced. Groups and paragraphs have none of their own. -/
def respan (f : Span → Span) : Node α → Node α
  | group children => .group children
  | paragraph children => .paragraph children
  | text span => .text (f span)
  | command name args => .command (f name) (args.map (Argument.respan f))

theorem map_respan (f : Span → Span) (g : α → β) (layer : Node α) :
    (layer.respan f).map g = (layer.map g).respan f := by
  cases layer with
  | command name args =>
    simp only [respan, map, List.map_map, Function.comp_def, Argument.map_respan]
  | _ => rfl

/-- What a layer is by itself, without its children, has the same spans as the layer. -/
theorem shape_respan (f : Span → Span) (layer : Node α) :
    (layer.respan f).shape = layer.shape.respan f :=
  map_respan f _ layer

/-- Spans may be replaced before or after something is done to the children. -/
theorem mapM_respan (f : Span → Span) (g : α → m β) (layer : Node α) :
    (layer.respan f).mapM g = respan f <$> layer.mapM g := by
  cases layer with
  | command name args =>
    have hargs : (args.map (Argument.respan f)).mapM (Argument.mapM g)
        = List.map (Argument.respan f) <$> args.mapM (Argument.mapM g) := by
      induction args with
      | nil => simp
      | cons arg rest ih => simp [Argument.mapM_respan, ih]
    simp [respan, mapM, hargs]
  | _ => simp [respan, mapM]

end Node

/-- The tree with every span replaced, at every depth. -/
def Tree.respan (f : Span → Span) : Tree → Tree :=
  Tree.fold fun layer => .node (layer.respan f)

/-- The arena with every span replaced. Nodes refer to each other by number, so nothing else changes. -/
def Arena.respan (f : Span → Span) (arena : Arena) : Arena :=
  ⟨arena.nodes.map (Node.respan f), arena.root⟩

/-- The fault with its span replaced. -/
def Fault.respan (f : Span → Span) (fault : Fault) : Fault :=
  ⟨fault.cause, f fault.span⟩

/-- The failure with its span replaced, if it has one. -/
def Failure.respan (f : Span → Span) : Failure → Failure
  | .fault found => .fault (found.respan f)
  | .nameNotAscii name => .nameNotAscii (f name)
  | .missingNode => .missingNode
  | .endless => .endless

/-- The argument, and all below it, with every span replaced. -/
def Argument.respanTree (f : Span → Span) (arg : Argument Tree) : Argument Tree :=
  (arg.map (Tree.respan f)).respan f

theorem Tree.respan_node (f : Span → Span) (layer : Node Tree) :
    (Tree.node layer).respan f = .node ((layer.map (Tree.respan f)).respan f) :=
  Tree.fold_node _ layer

theorem Tree.respan_command (f : Span → Span) (name : Span) (args : List (Argument Tree)) :
    (Tree.node (.command name args)).respan f
      = .node (.command (f name) (args.map (Argument.respanTree f))) := by
  rw [respan_node, Node.map, Node.respan, List.map_map]
  rfl

/-! ## Numbers -/

/-- The second action does to changed nodes what the first does to the nodes as they are, and both have
the same result. -/
def Carries {σ : Type} (change : σ → σ) (first second : StateM σ α) : Prop :=
  ∀ s, second (change s) = ((first s).1, change (first s).2)

namespace Carries

variable {σ : Type} {change : σ → σ}

theorem pure (a : α) : Carries change (pure a : StateM σ α) (pure a) :=
  fun _ => rfl

theorem bind {first second : StateM σ α} {k k' : α → StateM σ β} (h : Carries change first second)
    (hk : ∀ a, Carries change (k a) (k' a)) : Carries change (first >>= k) (second >>= k') := by
  intro s
  have hsecond := hk (first s).1 (first s).2
  show k' (second (change s)).1 (second (change s)).2 = _
  rw [h s]
  exact hsecond

/-- One after the other on a list, from left to right. -/
theorem list {k k' : α → StateM σ β} {l : List α} (h : ∀ a ∈ l, Carries change (k a) (k' a)) :
    Carries change (l.mapM k) (l.mapM k') := by
  induction l with
  | nil => exact pure []
  | cons a rest ih =>
    rw [List.mapM_cons, List.mapM_cons]
    refine (h a (List.mem_cons_self ..)).bind fun b => ?_
    exact (ih fun c hc => h c (List.mem_cons_of_mem a hc)).bind fun bs => pure (b :: bs)

theorem argument {k k' : α → StateM σ β} {arg : Argument α}
    (h : ∀ a ∈ arg.children, Carries change (k a) (k' a)) :
    Carries change (arg.mapM k) (arg.mapM k') := by
  cases arg with
  | block children span => exact (list h).bind fun _ => pure _
  | inline child span => exact (h child (List.mem_singleton_self child)).bind fun _ => pure _
  | _ => exact pure _

theorem node {k k' : α → StateM σ β} {layer : Node α}
    (h : ∀ a ∈ layer.children, Carries change (k a) (k' a)) :
    Carries change (layer.mapM k) (layer.mapM k') := by
  cases layer with
  | group children => exact (list h).bind fun _ => pure _
  | paragraph children => exact (list h).bind fun _ => pure _
  | text span => exact pure _
  | command name args =>
    refine (list fun arg harg => ?_).bind fun _ => pure _
    exact argument fun a ha => h a (List.mem_flatMap_of_mem harg ha)

end Carries

/-- A tree gets its numbers by how many nodes there are, and replacing spans does not change that. -/
theorem Tree.number_respan (f : Span → Span) : ∀ tree : Tree,
    Carries (Array.map (Node.respan f)) tree.number (tree.respan f).number := by
  refine Tree.induction fun layer ih => ?_
  rw [respan_node, Arena.number_node, Arena.number_node, Node.mapM_respan, Node.mapM_map,
    map_eq_pure_bind, bind_assoc]
  refine (Carries.node ih).bind fun node nodes => ?_
  -- The node is pushed behind as many others on both sides, so its number is the same.
  show ((nodes.map _).size, (nodes.map _).push (node.respan f))
    = (nodes.size, (nodes.push node).map (Node.respan f))
  rw [Array.size_map, Array.map_push]

/-- The nodes of a tree keep their numbers. -/
theorem Tree.toArena_respan (f : Span → Span) (tree : Tree) :
    (tree.respan f).toArena = tree.toArena.respan f := by
  have hnumber := tree.number_respan f #[]
  rw [Array.map_empty] at hnumber
  show Arena.mk ((tree.respan f).number #[]).2 ((tree.respan f).number #[]).1 = _
  rw [hnumber]
  rfl

/-! ## Failures below a layer -/

theorem mapM_mapError_list (f : α → Except Failure β) (e : Failure → Failure) (l : List α) :
    l.mapM (fun a => (f a).mapError e) = (l.mapM f).mapError e := by
  induction l with
  | nil => rfl
  | cons a rest ih =>
    rw [List.mapM_cons, List.mapM_cons, ih]
    cases f a with
    | error failure => rfl
    | ok b => cases rest.mapM f <;> rfl

/-- A failure in an argument is that of one of its children, so it can be changed there or here. -/
theorem Argument.mapM_mapError (f : α → Except Failure β) (e : Failure → Failure)
    (arg : Argument α) : arg.mapM (fun a => (f a).mapError e) = (arg.mapM f).mapError e := by
  cases arg with
  | block children span =>
    rw [mapM, mapM, mapM_mapError_list]
    cases children.mapM f <;> rfl
  | inline child span =>
    rw [mapM, mapM]
    cases f child <;> rfl
  | ident span => rfl
  | string span => rfl

theorem Node.mapM_mapError (f : α → Except Failure β) (e : Failure → Failure) (layer : Node α) :
    layer.mapM (fun a => (f a).mapError e) = (layer.mapM f).mapError e := by
  cases layer with
  | group children =>
    rw [mapM, mapM, mapM_mapError_list]
    cases children.mapM f <;> rfl
  | paragraph children =>
    rw [mapM, mapM, mapM_mapError_list]
    cases children.mapM f <;> rfl
  | text span => rfl
  -- The arguments are done one by one, each with the children that it holds.
  | command name args =>
    have hargs : Argument.mapM (fun a => (f a).mapError e)
        = fun arg : Argument α => (arg.mapM f).mapError e :=
      funext (Argument.mapM_mapError f e)
    rw [mapM, mapM, hargs, mapM_mapError_list]
    cases args.mapM (Argument.mapM f) <;> rfl

/-- What is seen of the results, when every result tells what it is the result of. -/
theorem map_of_mapM {γ : Type} {f : α → Except Failure β} {seen : β → γ} {told : α → γ}
    (hf : ∀ a b, f a = .ok b → seen b = told a) {l : List α} {done : List β}
    (h : l.mapM f = .ok done) : done.map seen = l.map told := by
  induction l generalizing done with
  | nil =>
    cases h
    rfl
  | cons a rest ih =>
    rw [List.mapM_cons] at h
    cases ha : f a with
    | error failure =>
      rw [ha] at h
      cases h
    | ok b =>
      cases hrest : rest.mapM f with
      | error failure =>
        rw [ha, hrest] at h
        cases h
      | ok more =>
        rw [ha, hrest] at h
        cases h
        rw [List.map_cons, List.map_cons, hf a b ha, ih hrest]

/-- A result that something was made of. -/
theorem exists_of_map_eq_ok {f : α → β} {x : Except Failure α} {b : β} (h : x.map f = .ok b) :
    ∃ a, x = .ok a ∧ f a = b := by
  cases x with
  | error failure => cases h
  | ok a =>
    cases h
    exact ⟨a, rfl, rfl⟩

/-- What is done to the children leaves the argument by itself as it is. -/
theorem Argument.shape_of_mapM {f : α → Except Failure β} {arg : Argument α} {done : Argument β}
    (h : arg.mapM f = .ok done) : (done.map fun _ => ()) = arg.map fun _ => () := by
  cases arg with
  | block children span =>
    obtain ⟨found, hfound, rfl⟩ := exists_of_map_eq_ok h
    rw [map, map, map_of_mapM (fun _ _ _ => rfl) hfound]
  | inline child span =>
    obtain ⟨found, _, rfl⟩ := exists_of_map_eq_ok h
    rfl
  | ident span => cases h; rfl
  | string span => cases h; rfl

/-- What is done to the children leaves the layer by itself as it is. -/
theorem Node.shape_of_mapM {f : α → Except Failure β} {layer : Node α} {done : Node β}
    (h : layer.mapM f = .ok done) : done.shape = layer.shape := by
  cases layer with
  | group children =>
    obtain ⟨found, hfound, rfl⟩ := exists_of_map_eq_ok h
    rw [shape, shape, map, map, map_of_mapM (fun _ _ _ => rfl) hfound]
  | paragraph children =>
    obtain ⟨found, hfound, rfl⟩ := exists_of_map_eq_ok h
    rw [shape, shape, map, map, map_of_mapM (fun _ _ _ => rfl) hfound]
  | text span => cases h; rfl
  | command name args =>
    obtain ⟨found, hfound, rfl⟩ := exists_of_map_eq_ok h
    rw [shape, shape, map, map, map_of_mapM (fun _ _ => Argument.shape_of_mapM) hfound]

/-! ## Walks -/

/-- One visit makes of the layer what the other makes of it with other spans: a check that fails does so
with the spans of its own source, and what is joined is the same. -/
structure Visit.Agrees (visit other : Visit β) (f : Span → Span) (layer : Node Tree) : Prop where
  check : other.check (layer.shape.respan f)
    = (visit.check layer.shape).mapError (Failure.respan f)
  join : ∀ done : Node β, done.shape = layer.shape → other.join (done.respan f) = visit.join done

/-- A walk of the other document comes to the same, if the two visits agree on every layer of the tree. -/
theorem Tree.walk_respan {visit other : Visit β} {f : Span → Span} :
    ∀ tree : Tree, (∀ layer, tree.Has layer → visit.Agrees other f layer) →
      (tree.respan f).walk other = (tree.walk visit).mapError (Failure.respan f) := by
  refine Tree.induction fun layer ih hagrees => ?_
  -- Below the layer this is known by induction; it has to be put through the layer itself.
  have hchildren : ∀ child ∈ layer.children, (Tree.walk other ∘ Tree.respan f) child
      = (child.walk visit).mapError (Failure.respan f) :=
    fun child hchild => ih child hchild fun found h => hagrees found (.child hchild h)
  have hlayer : ((layer.map (Tree.respan f)).respan f).mapM (Tree.walk other)
      = ((layer.mapM (Tree.walk visit)).mapError (Failure.respan f)).map (Node.respan f) := by
    rw [Node.mapM_respan, Node.mapM_map, Node.mapM_congr hchildren, Node.mapM_mapError]
    rfl
  obtain ⟨hcheck, hjoin⟩ := hagrees layer (.here layer)
  rw [respan_node, walk_node, walk_node, Node.shape_respan, Node.shape_map, hcheck, hlayer]
  -- The layer is checked in front of its children, so its failure comes before any of theirs.
  cases visit.check layer.shape with
  | error failure => rfl
  | ok _ =>
    cases hdone : layer.mapM (Tree.walk visit) with
    | error failure => rfl
    | ok done => exact congrArg Except.ok (hjoin done (Node.shape_of_mapM hdone))

end TildeMarkup
