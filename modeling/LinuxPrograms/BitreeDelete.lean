import LinuxPrograms.BitreePreorder

/-! `binaryTree_delete` and `postorder` (bitree.c). Every node is freed once, after its subtrees,
and the caller's pointer stays. -/
namespace LinuxPrograms.Bitree
open Lib

/-- `binaryTree_delete(tree)`, with at most `depth` calls nested: the heap afterwards and what was
freed. It is not defined to read a node that is freed, or to free it again. -/
def deleteAt : ℕ → (ℕ → Option Node) → ℕ → Option ((ℕ → Option Node) × List ℕ)
  | 0, _, _ => none
  | depth+1, heap, tree =>
    if tree = 0 then some (heap, [])
    else do
      let n ← heap tree
      let l ← deleteAt depth heap n.left
      -- `tree->right` is read when the left subtree is gone
      let n' ← l.1 tree
      let r ← deleteAt depth l.1 n'.right
      let _ ← r.1 tree
      return (Function.update r.1 tree none, l.2 ++ r.2 ++ [tree])

/-- `binaryTree_delete(tree)`; the pointer is passed by value. -/
def binaryTreeDelete (s : State) (tree : ℕ) : Option (State × List ℕ) :=
  (deleteAt (s.nodes+1) s.heap tree).map fun p => ({ s with heap := p.1 }, p.2)

/-- What `postorder(tree)` prints, with at most `depth` calls nested. -/
def postorderAt (heap : ℕ → Option Node) : ℕ → ℕ → Option (List ℤ)
  | 0, _ => none
  | depth+1, tree =>
    if tree = 0 then some []
    else do
      let n ← heap tree
      let l ← postorderAt heap depth n.left
      let r ← postorderAt heap depth n.right
      return l ++ r ++ [n.data]

/-- `postorder(tree)`. -/
def postorder (s : State) (tree : ℕ) : Option (List ℤ) := postorderAt s.heap (s.nodes+1) tree

theorem postorderAt_eq (heap : ℕ → Option Node) (depth tree : ℕ) :
    postorderAt heap depth tree = (treeAt heap depth tree).map rootLast :=
  traversal_eq (fun x l r => l ++ r ++ [x]) (fun _ => rfl) (fun _ _ => rfl) rfl (fun _ _ _ => rfl)
    depth tree

/-- The heap without some nodes. -/
def clear (heap : ℕ → Option Node) (as : List ℕ) : ℕ → Option Node :=
  fun a => if a ∈ as then none else heap a

theorem clear_of_not_mem {heap : ℕ → Option Node} {as : List ℕ} {a : ℕ} (h : a ∉ as) :
    clear heap as a = heap a := if_neg h

/-- A tree that shares nothing with the nodes that are gone stays. -/
theorem Stored.clear {heap : ℕ → Option Node} {t : BinaryTree (ℕ × ℤ)} {as : List ℕ}
    (h : Stored heap t) (hdisj : ∀ a ∈ addrs t, a ∉ as) : Stored (clear heap as) t :=
  h.congr fun a ha => clear_of_not_mem (hdisj a ha)

theorem clear_node (heap : ℕ → Option Node) (x : ℕ × ℤ) (l r : BinaryTree (ℕ × ℤ)) :
    Function.update (clear (clear heap (addrs l)) (addrs r)) x.1 none =
      clear heap (addrs (.node x l r)) := by
  funext a
  by_cases hx : a = x.1
  · rw [hx, Function.update_self]
    simp [clear, addrs_node]
  · rw [Function.update_of_ne hx]
    by_cases hl : a ∈ addrs l <;> by_cases hr : a ∈ addrs r <;> simp [clear, addrs_node, hx, hl, hr]

/-- Each node of the tree is freed after its subtrees, and nothing else is touched. -/
theorem deleteAt_stored {heap : ℕ → Option Node} {depth : ℕ} {t : BinaryTree (ℕ × ℤ)}
    (h : Stored heap t) (hnodup : (addrs t).Nodup) (hdepth : t.height < depth) :
    deleteAt depth heap (ptr t) = some (clear heap (addrs t), (rootLast t).map Prod.fst) := by
  induction t generalizing heap depth with
  | nil =>
    obtain ⟨d, rfl⟩ := Nat.exists_eq_succ_of_ne_zero (Nat.ne_of_gt hdepth)
    refine congrArg some (Prod.ext (funext fun a => ?_) rfl)
    exact (clear_of_not_mem List.not_mem_nil).symm
  | node x l r ihl ihr =>
    obtain ⟨d, rfl⟩ := Nat.exists_eq_succ_of_ne_zero (Nat.ne_of_gt (Nat.zero_lt_of_lt hdepth))
    obtain ⟨hne, hx, hl, hr⟩ := h
    obtain ⟨hxl, hxr, hnl, hnr, hdisj⟩ := nodup_node hnodup
    rw [BinaryTree.height] at hdepth
    have hleft := ihl hl hnl (show l.height < d by omega)
    have hright := ihr (hr.clear fun a ha hmem => hdisj a hmem ha) hnr (show r.height < d by omega)
    -- the node is still there when its right subtree is read, and when it is freed
    have hx' : clear heap (addrs l) x.1 = some ⟨x.2, ptr l, ptr r⟩ :=
      (clear_of_not_mem hxl).trans hx
    have hx'' : clear (clear heap (addrs l)) (addrs r) x.1 = some ⟨x.2, ptr l, ptr r⟩ :=
      (clear_of_not_mem hxr).trans hx'
    rw [ptr, deleteAt, if_neg hne, hx]
    change (deleteAt d heap (ptr l)).bind _ = _
    rw [hleft, Option.bind_some]
    dsimp only
    rw [hx']
    change (deleteAt d (clear heap (addrs l)) (ptr r)).bind _ = _
    rw [hright, Option.bind_some]
    dsimp only
    rw [hx'', rootLast, List.map_append, List.map_append, ← clear_node]
    rfl

/-- What is freed: the addresses of the tree. -/
theorem mem_freed {t : BinaryTree (ℕ × ℤ)} {a : ℕ} :
    a ∈ (rootLast t).map Prod.fst ↔ a ∈ addrs t :=
  ((rootLast_perm t).map Prod.fst).mem_iff

/-- The values at the addresses of the tree. -/
theorem Stored.mapM_data {heap : ℕ → Option Node} {t : BinaryTree (ℕ × ℤ)} {xs : List (ℕ × ℤ)}
    (h : Stored heap t) (hxs : ∀ x ∈ xs, x ∈ elements t) :
    (xs.map Prod.fst).mapM (fun a => (heap a).map Node.data) = some (xs.map Prod.snd) := by
  have hdata : ∀ x ∈ elements t, (heap x.1).map Node.data = some x.2 := by
    clear hxs
    induction t with
    | nil => exact fun x hx => (List.not_mem_nil hx).elim
    | node y l r ihl ihr =>
      obtain ⟨-, hy, hl, hr⟩ := h
      intro x hx
      rcases List.mem_append.mp hx with hx | hx
      · exact ihl hl x hx
      rcases List.mem_cons.mp hx with rfl | hx
      · rw [hy]
        rfl
      · exact ihr hr x hx
  induction xs with
  | nil => rfl
  | cons x xs ih =>
    rw [List.map_cons, List.mapM_cons, hdata x (hxs x List.mem_cons_self),
      ih fun y hy => hxs y (List.mem_cons_of_mem _ hy)]
    rfl

/-- A call through the pointer that `binaryTree_delete` leaves behind. -/
theorem call_dangling {s : State} (hroot : s.root ≠ 0) (hheap : s.heap = fun _ => none) (c : Call) :
    call s c = none := by
  cases c with
  | insert val node =>
    rw [call, binaryTreeInsert, insertAt, State.get]
    change ((if s.root = 0 then _ else (s.heap s.root).bind _).map _) = _
    rw [if_neg hroot, hheap]
    rfl
  | inorder =>
    rw [call, inorder, inorderAt, if_neg hroot, hheap]
    rfl

/-- Whatever was called before: `binaryTree_delete` reads no node that it has freed, frees what
`malloc` has returned and nothing else, each node once, in the order in which `postorder` prints
the values. The pointer to the root stays, and if there was a tree, every further call reads
freed memory. -/
theorem delete_frees_all (calls : List Call) (hcalls : LegalCalls MallocOk call empty calls) :
    ∃ s as s' freed, answers call empty calls = some (s, as) ∧
      binaryTreeDelete s s.root = some (s', freed) ∧
      freed.Nodup ∧ (∀ a, a ∈ freed ↔ s.heap a ≠ none) ∧ (s'.heap = fun _ => none) ∧
      postorder s s.root = freed.mapM (fun a => (s.heap a).map Node.data) ∧
      s'.root = s.root ∧ (freed ≠ [] → ∀ c, call s' c = none) := by
  obtain ⟨s, hanswers, h⟩ := call_simulates_searchTree.answers holds_empty hcalls
  generalize (specAnswers searchTree .nil calls).1 = t at h
  have hdepth : t.height < s.nodes+1 := h.height_lt
  have hdelete := deleteAt_stored h.stored h.nodup hdepth
  have hheap : clear s.heap (addrs t) = fun _ => none := by
    funext a
    by_cases ha : a ∈ addrs t
    · exact if_pos ha
    · rw [clear_of_not_mem ha, h.only a ha]
  have hmem (a : ℕ) : a ∈ (rootLast t).map Prod.fst ↔ s.heap a ≠ none := by
    rw [mem_freed]
    constructor
    · intro ha hnone
      have hsome := h.stored.isSome ha
      rw [hnone] at hsome
      cases hsome
    · intro ha
      by_contra hmem
      exact ha (h.only a hmem)
  refine ⟨s, _, { s with heap := fun _ => none }, (rootLast t).map Prod.fst, hanswers, ?_, ?_, hmem,
    rfl, ?_, rfl, fun hne c => ?_⟩
  · rw [binaryTreeDelete, h.root, hdelete, hheap]
    rfl
  · exact (((rootLast_perm t).map Prod.fst).nodup_iff).mpr h.nodup
  · rw [postorder, postorderAt_eq, h.root, treeAt_stored h.stored hdepth, Option.map_some,
      rootLast_map, h.stored.mapM_data fun x hx => (rootLast_perm t).mem_iff.mp hx]
  · refine call_dangling ?_ rfl c
    rw [h.root]
    cases t with
    | nil => exact (hne rfl).elim
    | node x l r => exact h.stored.1

/-- 5 over 3 and 8: 3 and 8 are freed before 5. -/
theorem delete_frees_all_three :
    ∃ s as s' freed, answers call empty [.insert 5 1, .insert 3 2, .insert 8 3] = some (s, as) ∧
      binaryTreeDelete s s.root = some (s', freed) ∧
      freed.Nodup ∧ (∀ a, a ∈ freed ↔ s.heap a ≠ none) ∧ (s'.heap = fun _ => none) ∧
      postorder s s.root = freed.mapM (fun a => (s.heap a).map Node.data) ∧
      s'.root = s.root ∧ (freed ≠ [] → ∀ c, call s' c = none) :=
  delete_frees_all [.insert 5 1, .insert 3 2, .insert 8 3]
    ⟨⟨by decide, rfl⟩, ⟨by decide, rfl⟩, ⟨by decide, rfl⟩, trivial⟩

end LinuxPrograms.Bitree
