import TildeMarkup.Document.Walk

/-!
# A tree and its arena

The arena of a tree holds the tree: walking the one gives what walking the other gives, so nothing
depends on the numbers of the nodes. `Arena.Holds` says that a tree can be read off from a number,
along children with smaller numbers. Numbering a tree only adds nodes (`Arena.Extends`) and gives a
number that holds it; a walk that may take more steps than the number says what the tree says.

Two layers of one shape are given as one layer over pairs.
-/

namespace TildeMarkup

variable {α β γ : Type} {m : Type → Type} [Monad m] [LawfulMonad m]

/-! ## Actions on the children of a layer -/

/-- An action on a list does with its members what another does, if the two agree on these. -/
theorem mapM_congr_mem {f g : α → m β} {l : List α} (h : ∀ a ∈ l, f a = g a) :
    l.mapM f = l.mapM g := by
  induction l with
  | nil => rfl
  | cons a rest ih =>
    rw [List.mapM_cons, List.mapM_cons, h a (List.mem_cons_self ..),
      ih fun b hb => h b (List.mem_cons_of_mem a hb)]

namespace Argument

theorem mapM_map (f : α → β) (g : β → m γ) (arg : Argument α) :
    (arg.map f).mapM g = arg.mapM (g ∘ f) := by
  cases arg with
  | block children span => rw [map, mapM, mapM, List.mapM_map]
  | _ => rfl

theorem mapM_congr {f g : α → m β} {arg : Argument α} (h : ∀ a ∈ arg.children, f a = g a) :
    arg.mapM f = arg.mapM g := by
  cases arg with
  | block children span => rw [mapM, mapM, mapM_congr_mem (l := children) h]
  | inline child span => rw [mapM, mapM, h child (List.mem_singleton_self child)]
  | _ => rfl

theorem mapM_pure (f : α → β) (arg : Argument α) :
    arg.mapM (fun a => (pure (f a) : m β)) = pure (arg.map f) := by
  cases arg with
  | block children span => rw [mapM, List.mapM_pure, pure_bind, map]
  | inline child span => rw [mapM, pure_bind, map]
  | _ => rfl

end Argument

namespace Node

/-- Changing the children first is part of what is done to them. -/
theorem mapM_map (f : α → β) (g : β → m γ) (node : Node α) :
    (node.map f).mapM g = node.mapM (g ∘ f) := by
  cases node with
  | group children => rw [map, mapM, mapM, List.mapM_map]
  | paragraph children => rw [map, mapM, mapM, List.mapM_map]
  | text span => rfl
  | command name args =>
    have hargs : Argument.mapM g ∘ Argument.map f = Argument.mapM (g ∘ f) :=
      funext fun arg => Argument.mapM_map f g arg
    rw [map, mapM, mapM, List.mapM_map, hargs]

/-- What is done to a layer depends on what is done to its children. -/
theorem mapM_congr {f g : α → m β} {node : Node α} (h : ∀ a ∈ node.children, f a = g a) :
    node.mapM f = node.mapM g := by
  cases node with
  | group children => rw [mapM, mapM, mapM_congr_mem (l := children) h]
  | paragraph children => rw [mapM, mapM, mapM_congr_mem (l := children) h]
  | text span => rfl
  | command name args =>
    have hargs : ∀ arg ∈ args, arg.mapM f = arg.mapM g := fun arg harg =>
      Argument.mapM_congr fun a ha => h a (List.mem_flatMap_of_mem harg ha)
    rw [mapM, mapM, mapM_congr_mem hargs]

theorem mapM_pure (f : α → β) (node : Node α) :
    node.mapM (fun a => (pure (f a) : m β)) = pure (node.map f) := by
  cases node with
  | text span => rfl
  | command name args =>
    have hargs : (Argument.mapM fun a => (pure (f a) : m β)) = fun arg => pure (arg.map f) :=
      funext (Argument.mapM_pure f)
    rw [mapM, hargs, List.mapM_pure, pure_bind, map]
  | _ => rw [mapM, List.mapM_pure, pure_bind, map]

/-- The same for a change that does nothing else, by the one above. -/
theorem map_congr {f g : α → β} {node : Node α} (h : ∀ a ∈ node.children, f a = g a) :
    node.map f = node.map g :=
  (mapM_pure (m := Id) f node).symm.trans
    ((mapM_congr fun a ha => congrArg pure (h a ha)).trans (mapM_pure g node))

/-- A layer is not changed if none of its children is. -/
theorem map_eq_self {f : α → α} {layer : Node α} (h : ∀ a ∈ layer.children, f a = a) :
    layer.map f = layer := by
  have hlist (children : List α) (h : ∀ a ∈ children, f a = a) : children.map f = children :=
    (List.map_congr_left h).trans (List.map_id' children)
  cases layer with
  | group children => rw [map, hlist children h]
  | paragraph children => rw [map, hlist children h]
  | text span => rfl
  | command name args =>
    have harg (arg : Argument α) (harg : arg ∈ args) : arg.map f = arg := by
      have hchildren : ∀ a ∈ arg.children, f a = a := fun a ha =>
        h a (List.mem_flatMap_of_mem harg ha)
      cases arg with
      | block children span => rw [Argument.map, hlist children hchildren]
      | inline child span => rw [Argument.map, hchildren child (List.mem_singleton_self child)]
      | _ => rfl
    rw [map, (List.map_congr_left harg).trans (List.map_id' args)]

end Node

/-- What walking gives for a layer, from the walks of its children. -/
theorem Tree.walk_node (visit : Visit β) (layer : Node Tree) :
    (Tree.node layer).walk visit = do
      visit.check layer.shape
      return visit.join (← layer.mapM (Tree.walk visit)) := by
  rw [walk, fold_node, Visit.layer, Node.shape_map, Node.mapM_map]
  rfl

namespace Arena

/-! ## Numbers that hold a tree -/

/-- The nodes under a number are those of a tree, and every child has a smaller number. -/
inductive Holds (nodes : Array (Node Nat)) : Tree → Nat → Prop where
  | node {id : Nat} (layer : Node (Tree × Nat)) (hget : nodes[id]? = some (layer.map Prod.snd))
      (hlt : ∀ child ∈ layer.children, child.2 < id)
      (hchildren : ∀ child ∈ layer.children, Holds nodes child.1 child.2) :
      Holds nodes (.node (layer.map Prod.fst)) id

/-- Nodes are only added. -/
def Extends {ι : Type} (before after : Array (Node ι)) : Prop :=
  ∀ (place : Nat) (node : Node ι), before[place]? = some node → after[place]? = some node

theorem Extends.refl {ι : Type} (nodes : Array (Node ι)) : Extends nodes nodes :=
  fun _ _ h => h

theorem Extends.trans {ι : Type} {a b c : Array (Node ι)} (hab : Extends a b) (hbc : Extends b c) :
    Extends a c :=
  fun place node h => hbc place node (hab place node h)

theorem Extends.push {ι : Type} (nodes : Array (Node ι)) (node : Node ι) :
    Extends nodes (nodes.push node) := by
  intro id found h
  obtain ⟨hlt, _⟩ := Array.getElem?_eq_some_iff.1 h
  rw [Array.getElem?_push_lt hlt, ← h, Array.getElem?_eq_getElem hlt]

/-- Nodes that are added are behind those that make up the tree, so the number still holds it. -/
theorem Holds.extends {before after : Array (Node Nat)} {tree : Tree} {id : Nat}
    (h : Holds before tree id) (hext : Extends before after) : Holds after tree id := by
  induction h with
  | node layer hget hlt _ ih => exact .node layer (hext _ _ hget) hlt ih

/-- A number that holds a tree is one of the arena. -/
theorem Holds.lt_size {nodes : Array (Node Nat)} {tree : Tree} {id : Nat}
    (h : Holds nodes tree id) : id < nodes.size := by
  cases h with
  | node layer hget => exact (Array.getElem?_eq_some_iff.1 hget).1

/-- A walk with a step to spare checks the node, walks its children, and joins what they come to. -/
theorem walkAt_succ {ι : Type} [Handle ι] {arena : Arena ι} {visit : Visit β} {id : ι} {layer : Node ι}
    (h : arena.get? id = some layer) (steps : Nat) : arena.walkAt visit (steps + 1) id = do
      visit.check layer.shape
      return visit.join (← layer.mapM (arena.walkAt visit steps)) := by
  rw [walkAt, h]

/-- Where a number holds a tree, a walk from it gives what walking the tree gives. -/
theorem Holds.walkAt_eq {arena : Arena} {tree : Tree} {id : Nat} (h : Holds arena.nodes tree id)
    (visit : Visit β) {steps : Nat} (hsteps : id < steps) :
    arena.walkAt visit steps id = tree.walk visit := by
  induction h generalizing steps with
  | @node id layer hget hlt _ ih =>
    obtain ⟨more, rfl⟩ : ∃ more, steps = more + 1 := ⟨steps - 1, by omega⟩
    have hchildren : ∀ child ∈ layer.children,
        (arena.walkAt visit more ∘ Prod.snd) child = (Tree.walk visit ∘ Prod.fst) child := by
      intro child hchild
      -- Children have smaller numbers, so one step less is enough for each of them.
      have hbelow := hlt child hchild
      exact ih child hchild (by omega)
    have hfound : arena.get? id = some (layer.map Prod.snd) := hget
    rw [walkAt_succ hfound, Tree.walk_node, Node.shape_map, Node.shape_map, Node.mapM_map,
      Node.mapM_map, Node.mapM_congr hchildren]

/-! ## Numbering a tree -/

/-- The action adds nodes only, and its result belongs to `a`: the two are the sides of one thing,
of which the new nodes have the property. -/
def Threads (action : StateM (Array (Node Nat)) β) (a : α) (left : γ → α) (right : γ → β)
    (Q : Array (Node Nat) → γ → Prop) : Prop :=
  ∀ nodes, ∃ c, left c = a ∧ right c = (action nodes).1 ∧ Extends nodes (action nodes).2
    ∧ Q (action nodes).2 c

/-- The two sides of a child: the number holds the tree. -/
def HoldsPair (nodes : Array (Node Nat)) (pair : Tree × Nat) : Prop :=
  Holds nodes pair.1 pair.2

/-- On a list, one after the other: what holds for an earlier one holds when the later ones have added
theirs. -/
theorem threads_list {f : α → StateM (Array (Node Nat)) β} {left : γ → α} {right : γ → β}
    {Q : Array (Node Nat) → γ → Prop}
    (hQ : ∀ {before after c}, Extends before after → Q before c → Q after c)
    {l : List α} (h : ∀ a ∈ l, Threads (f a) a left right Q) :
    Threads (l.mapM f) l (List.map left) (List.map right) (fun nodes cs => ∀ c ∈ cs, Q nodes c) := by
  induction l with
  | nil => exact fun nodes => ⟨[], rfl, rfl, Extends.refl nodes, fun _ hc => by cases hc⟩
  | cons a rest ih =>
    intro nodes
    obtain ⟨c, hleft, hright, hext, hc⟩ := h a (List.mem_cons_self ..) nodes
    obtain ⟨cs, hlefts, hrights, hrest, hcs⟩ :=
      ih (fun b hb => h b (List.mem_cons_of_mem a hb)) (f a nodes).2
    rw [List.mapM_cons]
    refine ⟨c :: cs, ?_, ?_, hext.trans hrest, ?_⟩
    · rw [List.map_cons, hleft, hlefts]
    · rw [List.map_cons, hright, hrights]
      rfl
    · intro d hd
      -- Later children add nodes, and what an earlier one came to holds in the larger arena as well.
      rcases List.mem_cons.1 hd with rfl | hd
      · exact hQ hrest hc
      · exact hcs d hd

theorem threads_trees {trees : List Tree}
    (h : ∀ tree ∈ trees, Threads tree.number tree Prod.fst Prod.snd HoldsPair) :
    Threads (trees.mapM Tree.number) trees (List.map Prod.fst) (List.map Prod.snd)
      (fun nodes pairs => ∀ pair ∈ pairs, HoldsPair nodes pair) :=
  threads_list (fun hext hholds => hholds.extends hext) h

/-- An argument is numbered by its children, wherever it keeps them. -/
theorem threads_argument {arg : Argument Tree}
    (h : ∀ tree ∈ arg.children, Threads tree.number tree Prod.fst Prod.snd HoldsPair) :
    Threads (arg.mapM Tree.number) arg (Argument.map Prod.fst) (Argument.map Prod.snd)
      (fun nodes pairs => ∀ pair ∈ pairs.children, HoldsPair nodes pair) := by
  intro nodes
  cases arg with
  | block children span =>
    obtain ⟨pairs, hfst, hsnd, hext, hpairs⟩ := threads_trees h nodes
    refine ⟨.block pairs span, ?_, ?_, hext, hpairs⟩
    · rw [Argument.map, hfst]
      rfl
    · rw [Argument.map, hsnd]
      rfl
  | inline child span =>
    obtain ⟨pair, hfst, hsnd, hext, hpair⟩ := h child (List.mem_singleton_self child) nodes
    refine ⟨.inline pair span, ?_, ?_, hext, ?_⟩
    · rw [Argument.map, hfst]
    · rw [Argument.map, hsnd]
      rfl
    · intro other hother
      rcases List.mem_singleton.1 hother with rfl
      exact hpair
  | ident span => exact ⟨.ident span, rfl, rfl, Extends.refl nodes, fun _ hc => by cases hc⟩
  | string span => exact ⟨.string span, rfl, rfl, Extends.refl nodes, fun _ hc => by cases hc⟩

/-- So is a layer, and with it a command, whose children are those of its arguments. -/
theorem threads_node {layer : Node Tree}
    (h : ∀ tree ∈ layer.children, Threads tree.number tree Prod.fst Prod.snd HoldsPair) :
    Threads (layer.mapM Tree.number) layer (Node.map Prod.fst) (Node.map Prod.snd)
      (fun nodes pairs => ∀ pair ∈ pairs.children, HoldsPair nodes pair) := by
  intro nodes
  cases layer with
  | group children =>
    obtain ⟨pairs, hfst, hsnd, hext, hpairs⟩ := threads_trees h nodes
    refine ⟨.group pairs, ?_, ?_, hext, hpairs⟩
    · rw [Node.map, hfst]
      rfl
    · rw [Node.map, hsnd]
      rfl
  | paragraph children =>
    obtain ⟨pairs, hfst, hsnd, hext, hpairs⟩ := threads_trees h nodes
    refine ⟨.paragraph pairs, ?_, ?_, hext, hpairs⟩
    · rw [Node.map, hfst]
      rfl
    · rw [Node.map, hsnd]
      rfl
  | text span => exact ⟨.text span, rfl, rfl, Extends.refl nodes, fun _ hc => by cases hc⟩
  | command name args =>
    have hargs : ∀ arg ∈ args, Threads (arg.mapM Tree.number) arg (Argument.map Prod.fst)
        (Argument.map Prod.snd) (fun nodes pairs => ∀ pair ∈ pairs.children, HoldsPair nodes pair) :=
      fun arg harg => threads_argument fun tree htree => h tree (List.mem_flatMap_of_mem harg htree)
    -- Arguments are threaded as children are, one level up.
    obtain ⟨pairs, hfst, hsnd, hext, hpairs⟩ := threads_list
      (fun hext hholds pair hpair => (hholds pair hpair).extends hext) hargs nodes
    refine ⟨.command name pairs, ?_, ?_, hext, ?_⟩
    · rw [Node.map, hfst]
    · rw [Node.map, hsnd]
      rfl
    · intro pair hpair
      obtain ⟨arg, harg, hpair⟩ := List.mem_flatMap.1 hpair
      exact hpairs arg harg pair hpair

/-- A tree is numbered by its children, then by itself. -/
theorem number_node (layer : Node Tree) :
    (Tree.node layer).number = layer.mapM Tree.number >>= fun node =>
      modifyGet fun nodes => (nodes.size, nodes.push node) := by
  rw [Tree.number, Tree.fold_node, Node.mapM_map]
  rfl

/-- Numbering a tree gives a number that holds it. -/
theorem threads_number : ∀ tree : Tree,
    Threads tree.number tree Prod.fst Prod.snd HoldsPair := by
  refine Tree.induction fun layer ih nodes => ?_
  obtain ⟨pairs, hfst, hsnd, hext, hpairs⟩ := threads_node ih nodes
  rw [number_node]
  let inner := (layer.mapM Tree.number nodes).2
  -- The layer is pushed behind its children: its number is the size of what they have filled.
  refine ⟨(.node layer, inner.size), rfl, rfl, hext.trans (Extends.push inner _), ?_⟩
  show Holds (inner.push (layer.mapM Tree.number nodes).1) (.node layer) inner.size
  rw [← hsnd]
  conv =>
    arg 2
    rw [← hfst]
  refine .node pairs ?_ ?_ ?_
  · exact Array.getElem?_push_size
  · exact fun pair hpair => (hpairs pair hpair).lt_size
  · exact fun pair hpair => (hpairs pair hpair).extends (Extends.push inner _)

/-- Walking the arena of a tree gives what walking the tree gives. All that is claimed of a walk is thus
shown by induction on trees. -/
theorem walk_toArena (visit : Visit β) (tree : Tree) : tree.toArena.walk visit = tree.walk visit := by
  obtain ⟨⟨found, root⟩, hfound, hroot, _, hholds⟩ := threads_number tree #[]
  cases hfound
  have hheld : Holds found.toArena.nodes found root := hholds
  have hnumber : root = found.toArena.root := hroot
  rw [hnumber] at hheld
  exact hheld.walkAt_eq visit (Nat.lt_succ_of_lt hheld.lt_size)

end Arena

end TildeMarkup
