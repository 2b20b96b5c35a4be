import LinuxPrograms.LibFifo
import LinuxPrograms.LibSearchTree
import Mathlib.Data.Int.Order.Basic

/-! The search tree of bitree.c. The heap maps the addresses that `malloc` has handed out to the
nodes there; address 0 is `NULL`. It is a sorted set: `inorder` prints the inserted values once
each, in order. -/
namespace LinuxPrograms.Bitree
open Lib

/-- `struct binaryTree`. -/
structure Node where
  data : ℤ
  left : ℕ
  right : ℕ
deriving DecidableEq, Repr

/-- The heap and the caller's pointer to the root. `nodes` says how often `malloc` was called. -/
structure State where
  heap : ℕ → Option Node
  root : ℕ
  nodes : ℕ

/-- What a `struct binaryTree **` points to: the caller's pointer, or a field of a node. -/
inductive Place
  | root
  | left (a : ℕ)
  | right (a : ℕ)

/-- `*tree`; `none` is an access through a pointer to no node. -/
def State.get (s : State) : Place → Option ℕ
  | .root => some s.root
  | .left a => (s.heap a).map Node.left
  | .right a => (s.heap a).map Node.right

/-- `*tree = node`. -/
def State.set (s : State) (node : ℕ) : Place → State
  | .root => { s with root := node }
  | .left a =>
    { s with heap := Function.update s.heap a ((s.heap a).map fun n => { n with left := node }) }
  | .right a =>
    { s with heap := Function.update s.heap a ((s.heap a).map fun n => { n with right := node }) }

/-- The new node. -/
def State.alloc (s : State) (node : ℕ) (val : ℤ) : State :=
  ⟨Function.update s.heap node (some ⟨val, 0, 0⟩), s.root, s.nodes+1⟩

/-- `binaryTree_insert(tree, val)`, with at most `depth` calls nested; `malloc` returns `node`. -/
def insertAt : ℕ → State → Place → ℤ → ℕ → Option State
  | 0, _, _, _, _ => none
  | depth+1, s, tree, val, node => do
    let p ← s.get tree
    if p = 0 then return (s.alloc node val).set node tree
    else
      let n ← s.heap p
      if val < n.data then insertAt depth s (.left p) val node
      else if val > n.data then insertAt depth s (.right p) val node
      else return s

/-- `binaryTree_insert(&root, val)`; no path has more nodes than the tree. -/
def binaryTreeInsert (s : State) (val : ℤ) (node : ℕ) : Option State :=
  insertAt (s.nodes+1) s .root val node

/-- What `inorder(tree)` prints, with at most `depth` calls nested. -/
def inorderAt (heap : ℕ → Option Node) : ℕ → ℕ → Option (List ℤ)
  | 0, _ => none
  | depth+1, tree =>
    if tree = 0 then some []
    else do
      let n ← heap tree
      let l ← inorderAt heap depth n.left
      let r ← inorderAt heap depth n.right
      return l ++ n.data :: r

/-- `inorder(tree)`. -/
def inorder (s : State) (tree : ℕ) : Option (List ℤ) := inorderAt s.heap (s.nodes+1) tree

/-- An insertion, with the address that `malloc` returns if it is called, or a traversal. -/
inductive Call
  | insert (val : ℤ) (node : ℕ)
  | inorder
deriving DecidableEq, Repr

/-- The tree afterwards and what was printed. -/
def call (s : State) : Call → Option (State × List ℤ)
  | .insert val node => (binaryTreeInsert s val node).map fun s' => (s', [])
  | .inorder => (inorder s s.root).map fun printed => (s, printed)

/-- `malloc` does not fail, and returns memory that is not in use. -/
def MallocOk (s : State) : Call → Prop
  | .insert _ node => node ≠ 0 ∧ s.heap node = none
  | .inorder => True

/-- A set that can be listed. -/
def sortedSet (xs : Finset ℤ) : Call → Finset ℤ × List ℤ
  | .insert val _ => (insert val xs, [])
  | .inorder => (xs, xs.sort)

/-- `root == NULL`. -/
def empty : State := ⟨fun _ => none, 0, 0⟩

/-! Trees in the heap: the elements are the addresses and the values there. -/

def ptr : BinaryTree (ℕ × ℤ) → ℕ
  | .nil => 0
  | .node x _ _ => x.1

def addrs (t : BinaryTree (ℕ × ℤ)) : List ℕ := (elements t).map Prod.fst

/-- Each node is where the pointers to it point. -/
def Stored (heap : ℕ → Option Node) : BinaryTree (ℕ × ℤ) → Prop
  | .nil => True
  | .node x l r =>
    x.1 ≠ 0 ∧ heap x.1 = some ⟨x.2, ptr l, ptr r⟩ ∧ Stored heap l ∧ Stored heap r

theorem addrs_node (x : ℕ × ℤ) (l r : BinaryTree (ℕ × ℤ)) :
    addrs (.node x l r) = addrs l ++ x.1 :: addrs r := by
  rw [addrs, elements, List.map_append, List.map_cons]
  rfl

/-- What is not in the tree may change. -/
theorem Stored.congr {heap heap' : ℕ → Option Node} {t : BinaryTree (ℕ × ℤ)}
    (h : Stored heap t) (heq : ∀ a ∈ addrs t, heap' a = heap a) : Stored heap' t := by
  induction t with
  | nil => trivial
  | node x l r ihl ihr =>
    obtain ⟨hne, hx, hl, hr⟩ := h
    rw [addrs_node] at heq
    refine ⟨hne, ?_, ihl hl fun a ha => ?_, ihr hr fun a ha => ?_⟩
    · rw [heq x.1 (List.mem_append_right _ List.mem_cons_self), hx]
    · exact heq a (List.mem_append_left _ ha)
    · exact heq a (List.mem_append_right _ (List.mem_cons_of_mem _ ha))

/-- The shape and the values of the tree at `tree`, down to depth `depth`. -/
def treeAt (heap : ℕ → Option Node) : ℕ → ℕ → Option (BinaryTree ℤ)
  | 0, _ => none
  | depth+1, tree =>
    if tree = 0 then some .nil
    else do
      let n ← heap tree
      let l ← treeAt heap depth n.left
      let r ← treeAt heap depth n.right
      return .node n.data l r

theorem treeAt_stored {heap : ℕ → Option Node} {depth : ℕ} {t : BinaryTree (ℕ × ℤ)}
    (h : Stored heap t) (hdepth : t.height < depth) :
    treeAt heap depth (ptr t) = some (t.map Prod.snd) := by
  induction t generalizing depth with
  | nil =>
    obtain ⟨d, rfl⟩ := Nat.exists_eq_succ_of_ne_zero (Nat.ne_of_gt hdepth)
    rfl
  | node x l r ihl ihr =>
    obtain ⟨d, rfl⟩ := Nat.exists_eq_succ_of_ne_zero (Nat.ne_of_gt (Nat.zero_lt_of_lt hdepth))
    obtain ⟨hne, hx, hl, hr⟩ := h
    rw [BinaryTree.height] at hdepth
    have hleft := ihl hl (show l.height < d by omega)
    have hright := ihr hr (show r.height < d by omega)
    rw [ptr, treeAt, if_neg hne, hx]
    change (treeAt heap d (ptr l)).bind _ = _
    rw [hleft, Option.bind_some]
    change (treeAt heap d (ptr r)).bind _ = _
    rw [hright]
    rfl

/-- A traversal that does at each node what `list` does at a node of a tree gives `list` of the tree
that is there. -/
theorem traversal_eq {heap : ℕ → Option Node} {walk : ℕ → ℕ → Option (List ℤ)}
    {list : BinaryTree ℤ → List ℤ} (visit : ℤ → List ℤ → List ℤ → List ℤ)
    (hzero : ∀ tree, walk 0 tree = none)
    (hsucc : ∀ depth tree, walk (depth+1) tree = if tree = 0 then some [] else do
      let n ← heap tree
      let l ← walk depth n.left
      let r ← walk depth n.right
      return visit n.data l r)
    (hnil : list .nil = []) (hnode : ∀ x l r, list (.node x l r) = visit x (list l) (list r))
    (depth tree : ℕ) : walk depth tree = (treeAt heap depth tree).map list := by
  induction depth generalizing tree with
  | zero => exact hzero tree
  | succ depth ih =>
    rw [hsucc]
    unfold treeAt
    split
    · rw [Option.map_some, hnil]
    · cases heap tree with
      | none => rfl
      | some n =>
        change (walk depth n.left).bind _ = ((treeAt heap depth n.left).bind _).map _
        rw [ih]
        cases treeAt heap depth n.left with
        | none => rfl
        | some l =>
          change (walk depth n.right).bind _ = ((treeAt heap depth n.right).bind _).map _
          rw [ih]
          cases treeAt heap depth n.right with
          | none => rfl
          | some r => exact congrArg some (hnode n.data l r).symm

/-- The traversal prints the values of the tree that is there, from left to right. -/
theorem inorderAt_eq (heap : ℕ → Option Node) (depth tree : ℕ) :
    inorderAt heap depth tree = (treeAt heap depth tree).map elements :=
  traversal_eq (fun x l r => l ++ x :: r) (fun _ => rfl) (fun _ _ => rfl) rfl (fun _ _ _ => rfl)
    depth tree

theorem inorderAt_stored {heap : ℕ → Option Node} {depth : ℕ} {t : BinaryTree (ℕ × ℤ)}
    (h : Stored heap t) (hdepth : t.height < depth) :
    inorderAt heap depth (ptr t) = some (keys Prod.snd t) := by
  rw [inorderAt_eq, treeAt_stored h hdepth, Option.map_some, elements_map, keys]

/-! One insertion. -/

/-- The node whose field a place is. -/
def Place.owner : Place → Option ℕ
  | .root => none
  | .left a => some a
  | .right a => some a

section Places

variable {s : State} {tree : Place} {p node b : ℕ}

theorem set_left_heap {a : ℕ} :
    (s.set node (.left a)).heap a = (s.heap a).map fun n => { n with left := node } :=
  Function.update_self _ _ _

theorem set_right_heap {a : ℕ} :
    (s.set node (.right a)).heap a = (s.heap a).map fun n => { n with right := node } :=
  Function.update_self _ _ _

theorem alloc_heap_of_ne (val : ℤ) (h : b ≠ node) : (s.alloc node val).heap b = s.heap b :=
  Function.update_of_ne h _ _

theorem set_heap_of_ne (h : tree.owner ≠ some b) : (s.set node tree).heap b = s.heap b := by
  cases tree with
  | root => rfl
  | left a => exact Function.update_of_ne (fun heq => h (congrArg some heq.symm)) _ _
  | right a => exact Function.update_of_ne (fun heq => h (congrArg some heq.symm)) _ _

/-- Writing what is there changes nothing. -/
theorem set_get (h : s.get tree = some p) : s.set p tree = s := by
  cases tree with
  | root =>
    obtain rfl := Option.some.inj h
    rfl
  | left a =>
    obtain ⟨n, hn, rfl⟩ := Option.map_eq_some_iff.mp h
    have hsame : (s.heap a).map (fun m => { m with left := n.left }) = s.heap a := by
      rw [hn]
      rfl
    rw [State.set, hsame, Function.update_eq_self]
  | right a =>
    obtain ⟨n, hn, rfl⟩ := Option.map_eq_some_iff.mp h
    have hsame : (s.heap a).map (fun m => { m with right := n.right }) = s.heap a := by
      rw [hn]
      rfl
    rw [State.set, hsame, Function.update_eq_self]

/-- What was written is there. -/
theorem get_set (h : s.get tree = some p) : (s.set node tree).get tree = some node := by
  cases tree with
  | root => rfl
  | left a =>
    obtain ⟨n, hn, -⟩ := Option.map_eq_some_iff.mp h
    rw [State.get, set_left_heap, hn]
    rfl
  | right a =>
    obtain ⟨n, hn, -⟩ := Option.map_eq_some_iff.mp h
    rw [State.get, set_right_heap, hn]
    rfl

/-- The new node is none that a place belongs to. -/
theorem alloc_get (val : ℤ) (howner : tree.owner ≠ some node) :
    (s.alloc node val).get tree = s.get tree := by
  cases tree with
  | root => rfl
  | left a =>
    have hne : a ≠ node := fun heq => howner (congrArg some heq)
    rw [State.get, State.get, alloc_heap_of_ne val hne]
  | right a =>
    have hne : a ≠ node := fun heq => howner (congrArg some heq)
    rw [State.get, State.get, alloc_heap_of_ne val hne]

theorem alloc_set_heap (val : ℤ) (howner : tree.owner ≠ some node) (hb : b ≠ node) :
    ((s.alloc node val).set p tree).heap b = (s.set p tree).heap b := by
  by_cases hown : tree.owner = some b
  · cases tree with
    | root => cases hown
    | left a =>
      obtain rfl := Option.some.inj hown
      rw [set_left_heap, set_left_heap, alloc_heap_of_ne val hb]
    | right a =>
      obtain rfl := Option.some.inj hown
      rw [set_right_heap, set_right_heap, alloc_heap_of_ne val hb]
  · rw [set_heap_of_ne hown, set_heap_of_ne hown, alloc_heap_of_ne val hb]

end Places

/-- `t` at a place became `t'`, and nothing else changed. -/
structure Became (s : State) (tree : Place) (t t' : BinaryTree (ℕ × ℤ)) (s' : State) : Prop where
  stored : Stored s'.heap t'
  get : s'.get tree = some (ptr t')
  frame : ∀ b, b ∉ addrs t' → s'.heap b = (s.set (ptr t') tree).heap b
  root : s'.root = (s.set (ptr t') tree).root
  nodes : s'.nodes+(addrs t).length = s.nodes+(addrs t').length

theorem addrs_treeInsert {t : BinaryTree (ℕ × ℤ)} {b node : ℕ} {val : ℤ}
    (h : b ∈ addrs (treeInsert Prod.snd (node, val) t)) : b = node ∨ b ∈ addrs t := by
  obtain ⟨x, hx, rfl⟩ := List.mem_map.mp h
  rcases mem_treeInsert hx with rfl | hx
  · exact .inl rfl
  · exact .inr (List.mem_map_of_mem hx)

/-- Outside of the new tree and of the field nothing changed. -/
theorem Became.outside {s s' : State} {tree : Place} {t t' : BinaryTree (ℕ × ℤ)} {b : ℕ}
    (q : Became s tree t t' s') (hb : b ∉ addrs t') (hne : tree.owner ≠ some b) :
    s'.heap b = s.heap b :=
  (q.frame b hb).trans (set_heap_of_ne hne)

/-- A tree that shares nothing with the one that changed stays. -/
theorem Became.other {s s' : State} {tree : Place} {t o : BinaryTree (ℕ × ℤ)} {node : ℕ} {val : ℤ}
    (q : Became s tree t (treeInsert Prod.snd (node, val) t) s') (ho : Stored s.heap o)
    (hdisj : ∀ a ∈ addrs o, a ∉ addrs t) (hfree : node ∉ addrs o)
    (howner : ∀ a ∈ addrs o, tree.owner ≠ some a) : Stored s'.heap o := by
  refine ho.congr fun a ha => q.outside (fun hmem => ?_) (howner a ha)
  rcases addrs_treeInsert hmem with rfl | hmem
  · exact hfree ha
  · exact hdisj a ha hmem

/-- No address is twice in a tree. -/
theorem nodup_node {x : ℕ × ℤ} {l r : BinaryTree (ℕ × ℤ)} (h : (addrs (.node x l r)).Nodup) :
    x.1 ∉ addrs l ∧ x.1 ∉ addrs r ∧ (addrs l).Nodup ∧ (addrs r).Nodup ∧
      ∀ a ∈ addrs l, a ∉ addrs r := by
  rw [addrs_node, List.nodup_middle, List.nodup_cons, List.mem_append, not_or] at h
  obtain ⟨⟨hxl, hxr⟩, hlr⟩ := h
  obtain ⟨hl, hr, hdisj⟩ := List.nodup_append.mp hlr
  exact ⟨hxl, hxr, hl, hr, fun a ha ha' => hdisj a ha a ha' rfl⟩

/-- A node whose subtrees became others. -/
theorem became_node {x : ℕ × ℤ} {l r l' r' : BinaryTree (ℕ × ℤ)} {s s' : State} {tree : Place}
    (hget : s.get tree = some x.1)
    (hst : Stored s'.heap (.node x l' r'))
    (hframe : ∀ b, b ∉ addrs (.node x l' r') → s'.heap b = s.heap b)
    (howner : ∀ a, tree.owner = some a → a ∉ addrs (.node x l' r'))
    (hroot : s'.root = s.root)
    (hnodes : s'.nodes+(addrs (.node x l r)).length = s.nodes+(addrs (.node x l' r')).length) :
    Became s tree (.node x l r) (.node x l' r') s' where
  stored := hst
  get := by
    rw [ptr, ← hget]
    cases tree with
    | root => exact congrArg some hroot
    | left a => rw [State.get, State.get, hframe a (howner a rfl)]
    | right a => rw [State.get, State.get, hframe a (howner a rfl)]
  frame b hb := by
    rw [ptr, set_get hget]
    exact hframe b hb
  root := by
    rw [ptr, set_get hget]
    exact hroot
  nodes := hnodes

theorem insertAt_node {x : ℕ × ℤ} {l r : BinaryTree (ℕ × ℤ)} {s : State} {tree : Place}
    (hget : s.get tree = some x.1) (hst : Stored s.heap (.node x l r)) (depth node : ℕ) (val : ℤ) :
    insertAt (depth+1) s tree val node =
      if val < x.2 then insertAt depth s (.left x.1) val node
      else if val > x.2 then insertAt depth s (.right x.1) val node
      else some s := by
  obtain ⟨hx0, hx, -, -⟩ := hst
  rw [insertAt, hget]
  change (if x.1 = 0 then _ else (s.heap x.1).bind _) = _
  rw [if_neg hx0, hx]
  rfl

section Child

variable {x : ℕ × ℤ} {l r : BinaryTree (ℕ × ℤ)} {s s' : State} {tree : Place} {node : ℕ} {val : ℤ}
  (hget : s.get tree = some x.1) (hst : Stored s.heap (.node x l r))
  (hnodup : (addrs (.node x l r)).Nodup) (hfree : node ∉ addrs (.node x l r))
include hget hst hnodup hfree

theorem Became.left
    (q : Became s (.left x.1) l (treeInsert Prod.snd (node, val) l) s')
    (howner : ∀ a, tree.owner = some a →
      a ∉ addrs (.node x (treeInsert Prod.snd (node, val) l) r)) :
    Became s tree (.node x l r) (.node x (treeInsert Prod.snd (node, val) l) r) s' := by
  obtain ⟨hx0, hx, -, hr⟩ := hst
  obtain ⟨hxl, hxr, -, -, hdisj⟩ := nodup_node hnodup
  rw [addrs_node, List.mem_append, List.mem_cons, not_or, not_or] at hfree
  obtain ⟨-, hfx, hfr⟩ := hfree
  have hxl' : x.1 ∉ addrs (treeInsert Prod.snd (node, val) l) := fun hmem =>
    (addrs_treeInsert hmem).elim (fun heq => hfx heq.symm) hxl
  have hx' : s'.heap x.1 = some ⟨x.2, ptr (treeInsert Prod.snd (node, val) l), ptr r⟩ := by
    rw [q.frame x.1 hxl', set_left_heap, hx]
    rfl
  have hr' : Stored s'.heap r := by
    refine q.other hr (fun a ha hmem => hdisj a hmem ha) hfr fun a ha heq => hxr ?_
    rwa [Option.some.inj heq]
  refine became_node hget ⟨hx0, hx', q.stored, hr'⟩ ?_ howner q.root ?_
  · intro b hb
    rw [addrs_node, List.mem_append, List.mem_cons, not_or, not_or] at hb
    exact q.outside hb.1 fun heq => hb.2.1 (Option.some.inj heq).symm
  · have hn := q.nodes
    rw [addrs_node, addrs_node, List.length_append, List.length_append]
    omega

theorem Became.right
    (q : Became s (.right x.1) r (treeInsert Prod.snd (node, val) r) s')
    (howner : ∀ a, tree.owner = some a →
      a ∉ addrs (.node x l (treeInsert Prod.snd (node, val) r))) :
    Became s tree (.node x l r) (.node x l (treeInsert Prod.snd (node, val) r)) s' := by
  obtain ⟨hx0, hx, hl, -⟩ := hst
  obtain ⟨hxl, hxr, -, -, hdisj⟩ := nodup_node hnodup
  rw [addrs_node, List.mem_append, List.mem_cons, not_or, not_or] at hfree
  obtain ⟨hfl, hfx, -⟩ := hfree
  have hxr' : x.1 ∉ addrs (treeInsert Prod.snd (node, val) r) := fun hmem =>
    (addrs_treeInsert hmem).elim (fun heq => hfx heq.symm) hxr
  have hx' : s'.heap x.1 = some ⟨x.2, ptr l, ptr (treeInsert Prod.snd (node, val) r)⟩ := by
    rw [q.frame x.1 hxr', set_right_heap, hx]
    rfl
  have hl' : Stored s'.heap l := by
    refine q.other hl (fun a ha hmem => hdisj a ha hmem) hfl fun a ha heq => hxl ?_
    rwa [Option.some.inj heq]
  refine became_node hget ⟨hx0, hx', hl', q.stored⟩ ?_ howner q.root ?_
  · intro b hb
    rw [addrs_node, List.mem_append, List.mem_cons, not_or, not_or] at hb
    exact q.outside hb.2.2 fun heq => hb.2.1 (Option.some.inj heq).symm
  · have hn := q.nodes
    rw [addrs_node, addrs_node, List.length_append, List.length_append, List.length_cons,
      List.length_cons]
    omega

end Child

/-- The value goes into a place that is `NULL`. -/
theorem insertAt_nil {s : State} {tree : Place} {node : ℕ} {val : ℤ} (d : ℕ)
    (hget : s.get tree = some 0) (hnew : tree.owner ≠ some node) (hne : node ≠ 0) :
    ∃ s', insertAt (d+1) s tree val node = some s' ∧
      Became s tree .nil (treeInsert Prod.snd (node, val) .nil) s' := by
  have hget' := (alloc_get val hnew).trans hget
  refine ⟨(s.alloc node val).set node tree, ?_, ⟨hne, ?_, trivial, trivial⟩, get_set hget',
    ?_, ?_, ?_⟩
  · rw [insertAt, hget]
    rfl
  · rw [set_heap_of_ne hnew]
    exact Function.update_self _ _ _
  · intro b hb
    exact alloc_set_heap val hnew fun heq => hb (List.mem_singleton.mpr heq)
  · cases tree with
    | root => rfl
    | left a => rfl
    | right a => rfl
  · cases tree with
    | root => rfl
    | left a => rfl
    | right a => rfl

theorem insertAt_became {t : BinaryTree (ℕ × ℤ)} {s : State} {tree : Place} {depth node : ℕ}
    {val : ℤ} (hget : s.get tree = some (ptr t)) (hst : Stored s.heap t)
    (hnodup : (addrs t).Nodup) (howner : ∀ a, tree.owner = some a → a ∉ addrs t)
    (hnew : tree.owner ≠ some node) (hne : node ≠ 0) (hfree : node ∉ addrs t)
    (hdepth : t.height < depth) :
    ∃ s', insertAt depth s tree val node = some s' ∧
      Became s tree t (treeInsert Prod.snd (node, val) t) s' := by
  induction t generalizing s tree depth with
  | nil =>
    obtain ⟨d, rfl⟩ := Nat.exists_eq_succ_of_ne_zero (Nat.ne_of_gt hdepth)
    exact insertAt_nil d hget hnew hne
  | node x l r ihl ihr =>
    obtain ⟨d, rfl⟩ := Nat.exists_eq_succ_of_ne_zero (Nat.ne_of_gt (Nat.zero_lt_of_lt hdepth))
    obtain ⟨-, hx, hl, hr⟩ := id hst
    obtain ⟨hxl, hxr, hnl, hnr, -⟩ := nodup_node hnodup
    rw [BinaryTree.height] at hdepth
    obtain ⟨hfl, hfx, hfr⟩ : node ∉ addrs l ∧ node ≠ x.1 ∧ node ∉ addrs r := by
      rwa [addrs_node, List.mem_append, List.mem_cons, not_or, not_or] at hfree
    have howner' : ∀ a, tree.owner = some a →
        a ∉ addrs (treeInsert Prod.snd (node, val) (.node x l r)) := by
      intro a ha hmem
      rcases addrs_treeInsert hmem with rfl | hmem
      · exact hnew ha
      · exact howner a ha hmem
    rw [insertAt_node hget hst]
    by_cases hlt : val < x.2
    · -- the left subtree
      have hins : treeInsert Prod.snd (node, val) (.node x l r) =
          .node x (treeInsert Prod.snd (node, val) l) r := if_pos hlt
      rw [hins] at howner' ⊢
      rw [if_pos hlt]
      have hplace : s.get (.left x.1) = some (ptr l) := by
        rw [State.get, hx]
        rfl
      obtain ⟨s', hs', q⟩ := ihl hplace hl hnl
        (fun a ha => by rwa [← Option.some.inj ha])
        (fun heq => hfx (Option.some.inj heq).symm) hfl (show l.height < d by omega)
      exact ⟨s', hs', q.left hget hst hnodup hfree howner'⟩
    · rw [if_neg hlt]
      by_cases hgt : val > x.2
      · -- the right subtree
        have hins : treeInsert Prod.snd (node, val) (.node x l r) =
            .node x l (treeInsert Prod.snd (node, val) r) :=
          (if_neg hlt).trans (if_pos hgt)
        rw [hins] at howner' ⊢
        rw [if_pos hgt]
        have hplace : s.get (.right x.1) = some (ptr r) := by
          rw [State.get, hx]
          rfl
        obtain ⟨s', hs', q⟩ := ihr hplace hr hnr
          (fun a ha => by rwa [← Option.some.inj ha])
          (fun heq => hfx (Option.some.inj heq).symm) hfr (show r.height < d by omega)
        exact ⟨s', hs', q.right hget hst hnodup hfree howner'⟩
      · -- the value is there
        have hins : treeInsert Prod.snd (node, val) (.node x l r) = .node x l r :=
          (if_neg hlt).trans (if_neg hgt)
        rw [hins] at howner' ⊢
        rw [if_neg hgt]
        exact ⟨s, rfl, became_node hget hst (fun b _ => rfl) howner' rfl rfl⟩

/-! The tree. -/

/-- The heap holds the nodes of an ordered tree and no others. -/
structure Holds (s : State) (t : BinaryTree (ℕ × ℤ)) : Prop where
  root : s.root = ptr t
  stored : Stored s.heap t
  nodup : (addrs t).Nodup
  only : ∀ a, a ∉ addrs t → s.heap a = none
  nodes : s.nodes = (addrs t).length
  ordered : Ordered Prod.snd t

theorem holds_empty : Holds empty .nil :=
  ⟨rfl, trivial, List.nodup_nil, fun _ _ => rfl, rfl, trivial⟩

theorem Stored.isSome {heap : ℕ → Option Node} {t : BinaryTree (ℕ × ℤ)} {a : ℕ}
    (h : Stored heap t) (ha : a ∈ addrs t) : (heap a).isSome := by
  induction t with
  | nil => cases ha
  | node x l r ihl ihr =>
    obtain ⟨-, hx, hl, hr⟩ := h
    rw [addrs_node, List.mem_append, List.mem_cons] at ha
    rcases ha with ha | rfl | ha
    · exact ihl hl ha
    · rw [hx]
      rfl
    · exact ihr hr ha

/-- Each node has its subtrees, with smaller values on the left and greater ones on the right. -/
theorem Stored.subtrees {heap : ℕ → Option Node} {t : BinaryTree (ℕ × ℤ)} {a : ℕ} {n : Node}
    (h : Stored heap t) (hord : Ordered Prod.snd t) (ha : a ∈ addrs t) (hn : heap a = some n) :
    ∃ l r, (n.left = ptr l ∧ Stored heap l ∧ l.height < t.height ∧
        ∀ val ∈ keys Prod.snd l, val < n.data) ∧
      n.right = ptr r ∧ Stored heap r ∧ r.height < t.height ∧
        ∀ val ∈ keys Prod.snd r, n.data < val := by
  induction t with
  | nil => cases ha
  | node x l r ihl ihr =>
    obtain ⟨-, hx, hl, hr⟩ := h
    obtain ⟨⟨hleft, hright⟩, hol, hor⟩ := hord
    rw [BinaryTree.height]
    rw [addrs_node, List.mem_append, List.mem_cons] at ha
    rcases ha with ha | rfl | ha
    · obtain ⟨l', r', ⟨hpl, hsl, hhl, hkl⟩, hpr, hsr, hhr, hkr⟩ := ihl hl hol ha
      exact ⟨l', r', ⟨hpl, hsl, by omega, hkl⟩, hpr, hsr, by omega, hkr⟩
    · rw [hx] at hn
      obtain rfl := Option.some.inj hn
      refine ⟨l, r, ⟨rfl, hl, by omega, ?_⟩, rfl, hr, by omega, ?_⟩
      · intro val hval
        obtain ⟨y, hy, rfl⟩ := List.mem_map.mp hval
        exact hleft y hy
      · intro val hval
        obtain ⟨y, hy, rfl⟩ := List.mem_map.mp hval
        exact hright y hy
    · obtain ⟨l', r', ⟨hpl, hsl, hhl, hkl⟩, hpr, hsr, hhr, hkr⟩ := ihr hr hor ha
      exact ⟨l', r', ⟨hpl, hsl, by omega, hkl⟩, hpr, hsr, by omega, hkr⟩

/-- What is printed from the left of a node is smaller than its value, and what is printed from the
right is greater. -/
def NodesOrdered (s : State) : Prop :=
  ∀ a n, s.heap a = some n → ∃ l r, inorder s n.left = some l ∧ inorder s n.right = some r ∧
    (∀ val ∈ l, val < n.data) ∧ ∀ val ∈ r, n.data < val

section Holds

variable {s : State} {t : BinaryTree (ℕ × ℤ)} (h : Holds s t)
include h

theorem Holds.height_lt : t.height < s.nodes+1 := by
  have hle := height_le t
  rw [h.nodes, addrs, List.length_map]
  omega

theorem Holds.insert {node : ℕ} {val : ℤ} (hne : node ≠ 0) (hfree : s.heap node = none) :
    ∃ s', binaryTreeInsert s val node = some s' ∧
      Holds s' (treeInsert Prod.snd (node, val) t) := by
  have hfresh : node ∉ addrs t := by
    intro hmem
    have hsome := h.stored.isSome hmem
    rw [hfree] at hsome
    cases hsome
  have hroot : s.get .root = some (ptr t) := congrArg some h.root
  obtain ⟨s', hs', q⟩ := insertAt_became hroot h.stored h.nodup
    (fun a (ha : none = some a) => by cases ha) (fun heq : none = some node => by cases heq) hne
    hfresh h.height_lt
  refine ⟨s', hs', q.root, q.stored, ?_, ?_, ?_, ordered_treeInsert _ h.ordered⟩
  · -- the new address is another one
    rcases treeInsert_cases Prod.snd (node, val) t with hperm | ⟨hsame, -⟩
    · exact (hperm.map Prod.fst).nodup_iff.mpr (List.nodup_cons.mpr ⟨hfresh, h.nodup⟩)
    · rw [hsame]
      exact h.nodup
  · intro b hb
    have hold : s.heap b = none := by
      rcases treeInsert_cases Prod.snd (node, val) t with hperm | ⟨hsame, -⟩
      · apply h.only
        intro hmem
        exact hb ((hperm.map Prod.fst).mem_iff.mpr (List.mem_cons_of_mem _ hmem))
      · rw [hsame] at hb
        exact h.only b hb
    rw [q.outside hb (fun heq : none = some b => by cases heq), hold]
  · have hn := q.nodes
    have hnodes := h.nodes
    omega

theorem Holds.inorder : inorder s s.root = some (keys Prod.snd t) := by
  rw [Bitree.inorder, h.root]
  exact inorderAt_stored h.stored h.height_lt

theorem Holds.nodesOrdered : NodesOrdered s := by
  intro a n hn
  have ha : a ∈ addrs t := by
    by_contra hnot
    rw [h.only a hnot] at hn
    cases hn
  obtain ⟨l, r, ⟨hpl, hsl, hhl, hkl⟩, hpr, hsr, hhr, hkr⟩ := h.stored.subtrees h.ordered ha hn
  have hheight := h.height_lt
  refine ⟨_, _, ?_, ?_, hkl, hkr⟩
  · rw [Bitree.inorder, hpl]
    exact inorderAt_stored hsl (by omega)
  · rw [Bitree.inorder, hpr]
    exact inorderAt_stored hsr (by omega)

end Holds

/-- A tree that the calls are made on, with the addresses of its nodes. -/
def searchTree (t : BinaryTree (ℕ × ℤ)) : Call → BinaryTree (ℕ × ℤ) × List ℤ
  | .insert val node => (treeInsert Prod.snd (node, val) t, [])
  | .inorder => (t, keys Prod.snd t)

/-- The tree in the heap answers as the tree it holds. -/
theorem call_simulates_searchTree : Simulates call searchTree MallocOk Holds := by
  intro s t c h hmalloc
  cases c with
  | insert val node =>
    obtain ⟨s', hs', h'⟩ := h.insert hmalloc.1 hmalloc.2
    refine ⟨s', ?_, h'⟩
    rw [call, hs']
    rfl
  | inorder =>
    refine ⟨s, ?_, h⟩
    rw [call, h.inorder]
    rfl

/-- The tree answers as a set. -/
theorem call_simulates : Simulates call sortedSet MallocOk
    (fun s xs => ∃ t, Holds s t ∧ (keys Prod.snd t).toFinset = xs) := by
  rintro s xs c ⟨t, h, rfl⟩ hmalloc
  obtain ⟨s', hs', h'⟩ := call_simulates_searchTree s t c h hmalloc
  cases c with
  | insert val node =>
    refine ⟨s', hs', _, h', ?_⟩
    ext k
    change k ∈ (keys Prod.snd (treeInsert Prod.snd (node, val) t)).toFinset ↔
      k ∈ insert val (keys Prod.snd t).toFinset
    rw [List.mem_toFinset, mem_keys_treeInsert, Finset.mem_insert, List.mem_toFinset]
  | inorder =>
    refine ⟨s', hs'.trans ?_, t, h', rfl⟩
    change some (s', keys Prod.snd t) = some (s', (keys Prod.snd t).toFinset.sort)
    rw [← h.ordered.keys_eq_sort]

/-- The set holds what was inserted. -/
theorem mem_specAnswers {calls : List Call} {xs : Finset ℤ} {val : ℤ} :
    val ∈ (specAnswers sortedSet xs calls).1 ↔ val ∈ xs ∨ ∃ node, .insert val node ∈ calls := by
  induction calls generalizing xs with
  | nil =>
    refine ⟨.inl, ?_⟩
    rintro (h | ⟨node, h⟩)
    · exact h
    · cases h
  | cons c calls ih =>
    change val ∈ (specAnswers sortedSet (sortedSet xs c).1 calls).1 ↔ _
    rw [ih]
    cases c with
    | insert val' node' =>
      simp only [sortedSet, Finset.mem_insert, List.mem_cons, Call.insert.injEq, exists_or,
        exists_and_left, exists_eq, and_true]
      rw [or_assoc, or_left_comm]
    | inorder => simp only [sortedSet, List.mem_cons, reduceCtorEq, false_or]

/-- For every sequence of insertions and traversals from the empty tree: each traversal prints the
set of the values inserted so far, in order; in the tree that is reached each value is greater than
all in its left subtree and less than all in its right one, and `inorder` prints exactly the
inserted values, each once, in increasing order. -/
theorem binaryTree_is_sorted_set (calls : List Call)
    (hcalls : LegalCalls MallocOk call empty calls) :
    ∃ s printed, answers call empty calls = some (s, (specAnswers sortedSet ∅ calls).2) ∧
      NodesOrdered s ∧ inorder s s.root = some printed ∧ printed.Pairwise (· < ·) ∧
      ∀ val, val ∈ printed ↔ ∃ node, .insert val node ∈ calls := by
  obtain ⟨s, hanswers, t, h, hkeys⟩ := call_simulates.answers ⟨_, holds_empty, rfl⟩ hcalls
  refine ⟨s, keys Prod.snd t, hanswers, h.nodesOrdered, h.inorder, h.ordered.pairwise,
    fun val => ?_⟩
  have hmem : val ∈ (keys Prod.snd t).toFinset ↔ val ∈ keys Prod.snd t := List.mem_toFinset
  rw [← hmem, hkeys]
  change val ∈ (specAnswers sortedSet ∅ calls).1 ↔ _
  rw [mem_specAnswers]
  exact ⟨fun hval => hval.resolve_left (Finset.notMem_empty val), .inr⟩

/-- A value is inserted twice. -/
theorem binaryTree_is_sorted_set_twice :
    ∃ s, answers call empty [.insert 9 1, .insert 4 2, .insert 9 3, .inorder] =
      some (s, [[], [], [], [4, 9]]) := by
  obtain ⟨s, printed, hanswers, -⟩ := binaryTree_is_sorted_set
    [.insert 9 1, .insert 4 2, .insert 9 3, .inorder]
    ⟨⟨by decide, rfl⟩, ⟨by decide, rfl⟩, ⟨by decide, rfl⟩, trivial, trivial⟩
  have hsort : (insert 9 (insert 4 (insert 9 (∅ : Finset ℤ)))).sort = [4, 9] := by
    have hset : insert 9 (insert 4 (insert 9 (∅ : Finset ℤ))) = [4, 9].toFinset := by decide
    rw [hset]
    exact (List.toFinset_sort (· ≤ ·) (by decide)).mpr (by decide)
  exact ⟨s, hanswers.trans (congrArg (fun l => some (s, [[], [], [], l])) hsort)⟩

end LinuxPrograms.Bitree
