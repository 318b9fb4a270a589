import Mathlib.Logic.Relation
import Mathlib.Data.List.Nodup
import Mathlib.Data.List.Perm.Basic
import TildeMarkup.Proofs.Document.Traversal

/-!
# The arena in post-order

The arena of a tree lists its nodes, each one after those below it (`Arena.IsPostorder`). So a walk
from the root meets the numbers in order, all children stand in front of their parents, and every node
but the root is the child of exactly one other. That reading ends with such an arena is shown where
the rules push (`Proofs/Descent/Pushes`).

`Arena.Listing` tells how such a list comes about: a node goes behind what has been listed for its
children, and what is listed for one child goes behind what is listed for the children before it.
-/

namespace TildeMarkup

namespace Arena

/-- The numbers that a walk from a number on comes back from, in that order: each one after those
below it. A walk deeper than `steps` gives nothing. -/
def postorderAt (arena : Arena) : (steps id : Nat) → Option (List Nat)
  | 0, _ => none
  | steps + 1, id => do
    let layer ← arena.get? id
    let below ← layer.children.mapM (arena.postorderAt steps)
    return below.flatten ++ [id]

/-- The numbers of an arena in post-order, from its root on. -/
def postorder (arena : Arena) : Option (List Nat) :=
  arena.postorderAt (arena.nodes.size + 1) arena.root

/-- The one number is among the children of the other. -/
def IsChild (arena : Arena) (parent child : Nat) : Prop :=
  ∃ layer, arena.get? parent = some layer ∧ child ∈ layer.children

/-- The arena lists the nodes of one tree in post-order, the last of them a group. -/
structure IsPostorder (arena : Arena) : Prop where
  root : arena.root + 1 = arena.nodes.size
  group : ∃ children, arena.get? arena.root = some (.group children)
  postorder : arena.postorder = some (List.range arena.nodes.size)
  below : ∀ parent child, arena.IsChild parent child → child < parent
  parent : ∀ id < arena.nodes.size, id ≠ arena.root → ∃! parent, arena.IsChild parent id
  once : ∀ id layer, arena.get? id = some layer → layer.children.Nodup
  reached : ∀ id < arena.nodes.size, Relation.ReflTransGen arena.IsChild arena.root id

/-! ## Listings -/

/-- The nodes, the first of which has the number `start`, list trees in post-order; `roots` are the
numbers of these trees. -/
inductive Listing : (start : Nat) → (roots : List Nat) → (nodes : List (Node Nat)) → Prop where
  | nil (start : Nat) : Listing start [] []
  | append {start : Nat} {roots more : List Nat} {nodes rest : List (Node Nat)}
      (h : Listing start roots nodes) (hrest : Listing (start + nodes.length) more rest) :
      Listing start (roots ++ more) (nodes ++ rest)
  | node {start : Nat} {nodes : List (Node Nat)} (layer : Node Nat)
      (h : Listing start layer.children nodes) :
      Listing start [start + nodes.length] (nodes ++ [layer])

namespace Listing

variable {start : Nat} {roots : List Nat} {nodes : List (Node Nat)}

/-- The roots and the children of all nodes are the numbers of the nodes, each of them once. -/
theorem perm (h : Listing start roots nodes) :
    (roots ++ nodes.flatMap Node.children).Perm (List.range' start nodes.length) := by
  induction h with
  | nil start => exact .refl _
  | @append start roots more nodes rest _ _ ih ihrest =>
    rw [List.flatMap_append, List.length_append, ← List.range'_append_1]
    refine List.Perm.trans ?_ (ih.append ihrest)
    rw [List.append_assoc, List.append_assoc]
    exact (List.perm_append_comm_assoc more _ _).append_left roots
  | @node start nodes layer _ ih =>
    rw [List.flatMap_append, List.length_append, ← List.range'_append_1]
    have hbelow : (nodes.flatMap Node.children ++ [layer].flatMap Node.children).Perm
        (List.range' start nodes.length) := by
      rw [List.flatMap_singleton]
      exact List.perm_append_comm.trans ih
    exact List.perm_append_comm.trans (hbelow.append_right _)

/-- The roots are among the numbers that are listed. -/
theorem lt_of_mem_roots (h : Listing start roots nodes) {root : Nat} (hroot : root ∈ roots) :
    root < start + nodes.length := by
  have hmem := h.perm.mem_iff.1 (List.mem_append_left _ hroot)
  exact (List.mem_range'_1.1 hmem).2

/-- Children have smaller numbers. -/
theorem lt_of_mem_children (h : Listing start roots nodes) {i child : Nat} {layer : Node Nat}
    (hlayer : nodes[i]? = some layer) (hchild : child ∈ layer.children) : child < start + i := by
  induction h generalizing i with
  | nil => cases hlayer
  | @append start roots more nodes rest _ _ ih ihrest =>
    rcases Nat.lt_or_ge i nodes.length with hlt | hge
    · rw [List.getElem?_append_left hlt] at hlayer
      exact ih hlayer
    · rw [List.getElem?_append_right hge] at hlayer
      have hbelow := ihrest hlayer
      omega
  | @node start nodes last h ih =>
    rcases Nat.lt_or_ge i nodes.length with hlt | hge
    · rw [List.getElem?_append_left hlt] at hlayer
      exact ih hlayer
    · -- the last node stands behind the trees of its children
      rw [List.getElem?_append_right hge] at hlayer
      obtain ⟨_, hlast⟩ := List.getElem?_eq_some_iff.1 hlayer
      rw [List.getElem_singleton] at hlast
      rw [← hlast] at hchild
      have hlt := h.lt_of_mem_roots hchild
      omega

/-- A walk over the roots meets the numbers of the nodes in order. -/
theorem postorderAt_eq (h : Listing start roots nodes) {arena : Arena}
    (hat : ∀ i layer, nodes[i]? = some layer → arena.get? (start + i) = some layer) {steps : Nat}
    (hsteps : start + nodes.length ≤ steps) :
    ∃ below, roots.mapM (arena.postorderAt steps) = some below
      ∧ below.flatten = List.range' start nodes.length := by
  induction h generalizing steps with
  | nil => exact ⟨[], rfl, rfl⟩
  | @append start roots more nodes rest _ _ ih ihrest =>
    rw [List.length_append] at hsteps ⊢
    have hfits : start + nodes.length ≤ steps := by omega
    have hfits' : start + nodes.length + rest.length ≤ steps := by omega
    obtain ⟨below, hroots, hbelow⟩ := ih (fun i layer hlayer => by
      obtain ⟨hlt, _⟩ := List.getElem?_eq_some_iff.1 hlayer
      refine hat i layer ?_
      rw [List.getElem?_append_left hlt]
      exact hlayer) hfits
    obtain ⟨after, hmore, hafter⟩ := ihrest (fun i layer hlayer => by
      rw [Nat.add_assoc]
      refine hat (nodes.length + i) layer ?_
      rw [List.getElem?_append_right (by omega), Nat.add_sub_cancel_left]
      exact hlayer) hfits'
    refine ⟨below ++ after, ?_, ?_⟩
    · rw [List.mapM_append, hroots, hmore]
      rfl
    · rw [List.flatten_append, hbelow, hafter, List.range'_append_1]
  | @node start nodes layer _ ih =>
    rw [List.length_append, List.length_singleton] at hsteps ⊢
    obtain ⟨fewer, rfl⟩ : ∃ fewer, steps = fewer + 1 := ⟨steps - 1, by omega⟩
    have hfits : start + nodes.length ≤ fewer := by omega
    obtain ⟨below, hchildren, hbelow⟩ := ih (fun i found hfound => by
      obtain ⟨hlt, _⟩ := List.getElem?_eq_some_iff.1 hfound
      refine hat i found ?_
      rw [List.getElem?_append_left hlt]
      exact hfound) hfits
    have hlayer : arena.get? (start + nodes.length) = some layer := by
      refine hat nodes.length layer ?_
      rw [List.getElem?_append_right (Nat.le_refl _), Nat.sub_self]
      rfl
    refine ⟨[below.flatten ++ [start + nodes.length]], ?_, ?_⟩
    · rw [List.mapM_cons, List.mapM_nil, postorderAt, hlayer]
      simp [hchildren]
    · rw [List.flatten_singleton, hbelow, List.range'_1_concat]

end Listing

/-! ## Numbering a tree -/

/-- The action adds nodes that list trees in post-order. `roots` are the numbers of these trees in its
result, and `layers` what the nodes are by themselves. -/
def Lists {β : Type} (action : StateM (Array (Node Nat)) β) (roots : β → List Nat)
    (layers : List (Node Unit)) : Prop :=
  ∀ nodes, ∃ more, (action nodes).2.toList = nodes.toList ++ more
    ∧ Listing nodes.size (roots (action nodes).1) more ∧ more.map Node.shape = layers

end Arena

namespace Tree

/-- The layers of a tree by themselves, each one behind those below it. -/
def postorder : Tree → List (Node Unit) :=
  fold fun layer => layer.children.flatten ++ [layer.shape]

/-- The layer itself comes last, behind everything below. -/
theorem postorder_node (layer : Node Tree) :
    (node layer).postorder = layer.children.flatMap postorder ++ [layer.shape] := by
  rw [postorder, fold_node, Node.shape_map, Node.children_map]
  rfl

/-- The two orders list the same layers. -/
theorem postorder_perm_preorder : ∀ tree : Tree, tree.postorder.Perm tree.preorder := by
  refine Tree.induction fun layer ih => ?_
  rw [postorder_node, preorder_node]
  exact List.perm_append_comm.trans ((List.Perm.flatMap_left _ ih).cons _)

end Tree

namespace Arena

/-- Trees that are numbered one after the other are listed so. -/
theorem lists_mapM {trees : List Tree}
    (h : ∀ tree ∈ trees, Lists tree.number (fun id => [id]) tree.postorder) :
    Lists (trees.mapM Tree.number) id (trees.flatMap Tree.postorder) := by
  induction trees with
  | nil => exact fun nodes => ⟨[], (List.append_nil _).symm, .nil _, rfl⟩
  | cons tree rest ih =>
    intro nodes
    obtain ⟨more, hmore, hlisting, hlayers⟩ := h tree (List.mem_cons_self ..) nodes
    obtain ⟨after, hafter, hrest, hlayers'⟩ :=
      ih (fun other hother => h other (List.mem_cons_of_mem tree hother)) (tree.number nodes).2
    -- The next tree is listed from where the first has ended.
    have hsize : (tree.number nodes).2.size = nodes.size + more.length := by
      rw [← Array.length_toList, hmore, List.length_append, Array.length_toList]
    rw [hsize] at hrest
    rw [List.mapM_cons]
    refine ⟨more ++ after, ?_, hlisting.append hrest, ?_⟩
    · rw [← List.append_assoc, ← hmore]
      exact hafter
    · rw [List.map_append, hlayers, hlayers', List.flatMap_cons]

/-- Numbering the children does not change what a layer is by itself. -/
theorem shape_mapM_number (layer : Node Tree) (nodes : Array (Node Nat)) :
    (layer.mapM Tree.number nodes).1.shape = layer.shape := by
  obtain ⟨pairs, hfst, hsnd, _⟩ := threads_node (fun tree _ => threads_number tree) nodes
  rw [← hsnd, Node.shape_map]
  conv =>
    rhs
    rw [← hfst, Node.shape_map]

/-- Numbering a tree lists it in post-order. -/
theorem lists_number : ∀ tree : Tree, Lists tree.number (fun id => [id]) tree.postorder := by
  refine Tree.induction fun layer ih nodes => ?_
  obtain ⟨more, hmore, hlisting, hlayers⟩ := lists_mapM ih nodes
  -- the children of the new node are the numbers of the trees below it
  have hchildren := congrFun (Node.children_mapM Tree.number layer) nodes
  let done := layer.mapM Tree.number nodes
  have hroots : done.1.children = (layer.children.mapM Tree.number nodes).1 :=
    congrArg Prod.fst hchildren
  have hnodes : done.2 = (layer.children.mapM Tree.number nodes).2 := congrArg Prod.snd hchildren
  rw [number_node, Tree.postorder_node]
  refine ⟨more ++ [done.1], ?_, ?_, ?_⟩
  · show (done.2.push done.1).toList = _
    rw [Array.toList_push, hnodes, hmore, List.append_assoc]
  · show Listing nodes.size [done.2.size] _
    have hsize : done.2.size = nodes.size + more.length := by
      rw [hnodes, ← Array.length_toList, hmore, List.length_append, Array.length_toList]
    rw [hsize]
    refine .node done.1 ?_
    rw [hroots]
    exact hlisting
  · rw [List.map_append, hlayers, List.map_singleton, shape_mapM_number]

/-- The arena of a tree is a listing of it, from the number 0 on. -/
theorem listing_toArena (tree : Tree) :
    Listing 0 [tree.toArena.root] tree.toArena.nodes.toList
      ∧ tree.toArena.nodes.toList.map Node.shape = tree.postorder := by
  obtain ⟨more, hmore, hlisting, hlayers⟩ := lists_number tree #[]
  have hnodes : tree.toArena.nodes.toList = more := hmore
  rw [hnodes]
  exact ⟨hlisting, hlayers⟩

/-! ## Arenas of one tree -/

section Arena

variable {arena : Arena}

theorem get?_eq (arena : Arena) (id : Nat) : arena.get? id = arena.nodes.toList[id]? := by
  show arena.nodes[id]? = _
  rw [Array.getElem?_toList]

/-- The root has the last number: every other node is a child, and in front of its parent. -/
theorem root_of_listing (h : Listing 0 [arena.root] arena.nodes.toList) :
    arena.root + 1 = arena.nodes.size := by
  have hsize : arena.nodes.toList.length = arena.nodes.size := Array.length_toList
  have hlength := h.perm.length_eq
  rw [List.length_append, List.length_singleton, List.length_range', hsize] at hlength
  have hlast : arena.nodes.size - 1 ∈ List.range' 0 arena.nodes.toList.length := by
    rw [List.mem_range'_1, Array.length_toList]
    omega
  rcases List.mem_append.1 (h.perm.mem_iff.2 hlast) with hroot | hbelow
  · rw [List.mem_singleton] at hroot
    omega
  · obtain ⟨layer, hlayer, hchild⟩ := List.mem_flatMap.1 hbelow
    obtain ⟨i, hi, hget⟩ := List.mem_iff_getElem.1 hlayer
    have hlt := h.lt_of_mem_children (List.getElem?_eq_some_iff.2 ⟨hi, hget⟩) hchild
    rw [Array.length_toList] at hi
    omega

/-- A child has a smaller number than its parent. -/
theorem lt_of_isChild (h : Listing 0 [arena.root] arena.nodes.toList) {parent child : Nat}
    (hchild : arena.IsChild parent child) : child < parent := by
  obtain ⟨layer, hlayer, hmem⟩ := hchild
  rw [get?_eq] at hlayer
  have hlt := h.lt_of_mem_children hlayer hmem
  rwa [Nat.zero_add] at hlt

/-- Every number but the root's is that of a child. -/
theorem exists_isChild (h : Listing 0 [arena.root] arena.nodes.toList) {id : Nat}
    (hid : id < arena.nodes.size) (hroot : id ≠ arena.root) : ∃ parent, arena.IsChild parent id := by
  have hrange : id ∈ List.range' 0 arena.nodes.toList.length := by
    rw [List.mem_range'_1, Array.length_toList]
    omega
  rcases List.mem_append.1 (h.perm.mem_iff.2 hrange) with hmem | hmem
  · exact absurd (List.mem_singleton.1 hmem) hroot
  · obtain ⟨layer, hlayer, hchild⟩ := List.mem_flatMap.1 hmem
    obtain ⟨parent, hparent, hget⟩ := List.mem_iff_getElem.1 hlayer
    refine ⟨parent, layer, ?_, hchild⟩
    rw [get?_eq, List.getElem?_eq_some_iff]
    exact ⟨hparent, hget⟩

/-- No node has a child twice, and no two nodes share one. -/
theorem nodup_children (h : Listing 0 [arena.root] arena.nodes.toList) :
    (∀ layer ∈ arena.nodes.toList, layer.children.Nodup)
      ∧ arena.nodes.toList.Pairwise (Function.onFun List.Disjoint Node.children) := by
  have hnodup := h.perm.nodup_iff.2 List.nodup_range'
  exact List.nodup_flatMap.1 (List.nodup_append.1 hnodup).2.1

/-- A node is the child of one other at most. -/
theorem isChild_unique (h : Listing 0 [arena.root] arena.nodes.toList) {first second child : Nat}
    (hfirst : arena.IsChild first child) (hsecond : arena.IsChild second child) :
    first = second := by
  obtain ⟨layer, hlayer, hmem⟩ := hfirst
  obtain ⟨other, hother, hmem'⟩ := hsecond
  rw [get?_eq, List.getElem?_eq_some_iff] at hlayer hother
  obtain ⟨hlt, rfl⟩ := hlayer
  obtain ⟨hlt', rfl⟩ := hother
  have hdisjoint := List.pairwise_iff_getElem.1 (nodup_children h).2
  -- If the parents were two, the child would be listed for both of them.
  rcases Nat.lt_trichotomy first second with hless | heq | hless
  · exact absurd hmem' (hdisjoint first second hlt hlt' hless hmem)
  · exact heq
  · exact absurd hmem (hdisjoint second first hlt' hlt hless hmem')

/-- Every node is below the root: parents have larger numbers, up to the last one. -/
theorem reached_of_listing (h : Listing 0 [arena.root] arena.nodes.toList) (id : Nat)
    (hid : id < arena.nodes.size) : Relation.ReflTransGen arena.IsChild arena.root id := by
  by_cases hroot : id = arena.root
  · rw [hroot]
  · obtain ⟨parent, hparent⟩ := exists_isChild h hid hroot
    have hlt := lt_of_isChild h hparent
    have hsize : parent < arena.nodes.size := by
      obtain ⟨layer, hlayer, _⟩ := hparent
      exact (Array.getElem?_eq_some_iff.1 hlayer).1
    exact (reached_of_listing h parent hsize).tail hparent
termination_by arena.nodes.size - id

/-- An arena that lists its root, which is a group, is in post-order. -/
theorem isPostorder_of_listing (h : Listing 0 [arena.root] arena.nodes.toList)
    (hgroup : ∃ children, arena.get? arena.root = some (.group children)) : arena.IsPostorder where
  root := root_of_listing h
  group := hgroup
  postorder := by
    -- The walk comes back from the numbers in order, and it has steps enough for all of them.
    have hat (i : Nat) (layer : Node Nat) (hlayer : arena.nodes.toList[i]? = some layer) :
        arena.get? (0 + i) = some layer := by
      rw [Nat.zero_add, get?_eq]
      exact hlayer
    have hsteps : 0 + arena.nodes.toList.length ≤ arena.nodes.size + 1 := by
      rw [Array.length_toList]
      omega
    obtain ⟨below, hwalk, hbelow⟩ := h.postorderAt_eq hat hsteps
    rw [List.mapM_cons, List.mapM_nil] at hwalk
    obtain ⟨ids, hids, hrest⟩ := Option.bind_eq_some_iff.1 hwalk
    cases hrest
    rw [List.flatten_singleton, Array.length_toList, ← List.range_eq_range'] at hbelow
    rw [postorder, hids, hbelow]
  below _ _ := lt_of_isChild h
  parent id hid hroot := by
    obtain ⟨parent, hparent⟩ := exists_isChild h hid hroot
    exact ⟨parent, hparent, fun other hother => isChild_unique h hother hparent⟩
  once id layer hlayer := by
    rw [get?_eq] at hlayer
    exact (nodup_children h).1 layer (List.mem_of_getElem? hlayer)
  reached := reached_of_listing h

end Arena

/-- The nodes of the arena are, by themselves, the layers that a walk over the tree meets. -/
theorem exists_get?_iff {tree : Tree} {shape : Node Unit} :
    (∃ id layer, tree.toArena.get? id = some layer ∧ layer.shape = shape) ↔ shape ∈ tree.preorder := by
  rw [← tree.postorder_perm_preorder.mem_iff, ← (listing_toArena tree).2, List.mem_map]
  constructor
  · rintro ⟨id, layer, hlayer, hshape⟩
    rw [get?_eq] at hlayer
    exact ⟨layer, List.mem_of_getElem? hlayer, hshape⟩
  · rintro ⟨layer, hlayer, hshape⟩
    obtain ⟨id, hid⟩ := List.mem_iff_getElem?.1 hlayer
    exact ⟨id, layer, by rw [get?_eq, hid], hshape⟩

/-- The root of the arena is the group that the tree is. -/
theorem exists_group_root (trees : List Tree) :
    ∃ children, (Tree.node (.group trees)).toArena.get? (Tree.node (.group trees)).toArena.root
      = some (.group children) := by
  let arena := (Tree.node (.group trees)).toArena
  obtain ⟨hlisting, hlayers⟩ := listing_toArena (.node (.group trees))
  have hroot : arena.root + 1 = arena.nodes.toList.length := root_of_listing hlisting
  rw [Tree.postorder_node] at hlayers
  -- the root is listed last, and so is the layer of the tree among the layers
  have hlast : (arena.nodes.toList.map Node.shape)[arena.root]? = some (Node.group trees).shape := by
    have hlength := congrArg List.length hlayers
    rw [List.length_map, List.length_append, List.length_singleton] at hlength
    have hfront : arena.root = ((Node.group trees).children.flatMap Tree.postorder).length :=
      Nat.succ.inj (hroot.trans hlength)
    rw [hlayers, hfront, List.getElem?_concat_length]
  rw [List.getElem?_map] at hlast
  obtain ⟨layer, hlayer, hshape⟩ := Option.map_eq_some_iff.1 hlast
  rw [get?_eq]
  cases layer with
  | group children => exact ⟨children, hlayer⟩
  | _ => cases hshape

end Arena

end TildeMarkup
