import LinuxPrograms.Bitree

/-! `preorder` (bitree.c): the values in the order it prints them, inserted into an empty tree, give
the tree again. -/
namespace LinuxPrograms.Bitree
open Lib

/-- What `preorder(tree)` prints, with at most `depth` calls nested. -/
def preorderAt (heap : ℕ → Option Node) : ℕ → ℕ → Option (List ℤ)
  | 0, _ => none
  | depth+1, tree =>
    if tree = 0 then some []
    else do
      let n ← heap tree
      let l ← preorderAt heap depth n.left
      let r ← preorderAt heap depth n.right
      return n.data :: (l ++ r)

/-- `preorder(tree)`. -/
def preorder (s : State) (tree : ℕ) : Option (List ℤ) := preorderAt s.heap (s.nodes+1) tree

/-- The shape and the values of the tree. -/
def treeOf (s : State) : Option (BinaryTree ℤ) := treeAt s.heap (s.nodes+1) s.root

/-- The insertion of each value, with the address that `malloc` returns for it. -/
def inserts (xs : List (ℕ × ℤ)) : List Call := xs.map fun x => .insert x.2 x.1

/-- The traversal prints the values of the tree that is there, each before those of its subtrees. -/
theorem preorderAt_eq (heap : ℕ → Option Node) (depth tree : ℕ) :
    preorderAt heap depth tree = (treeAt heap depth tree).map rootFirst :=
  traversal_eq (fun x l r => x :: (l ++ r)) (fun _ => rfl) (fun _ _ => rfl) rfl (fun _ _ _ => rfl)
    depth tree

/-! The tree that the insertions build. -/

section Holds

variable {s : State} {t : BinaryTree (ℕ × ℤ)} (h : Holds s t)
include h

theorem Holds.treeOf : treeOf s = some (t.map Prod.snd) := by
  rw [Bitree.treeOf, h.root]
  exact treeAt_stored h.stored h.height_lt

theorem Holds.preorder : preorder s s.root = some ((rootFirst t).map Prod.snd) := by
  have htree : treeAt s.heap (s.nodes+1) s.root = some (t.map Prod.snd) := h.treeOf
  rw [Bitree.preorder, preorderAt_eq, htree, Option.map_some, rootFirst_map]

end Holds

/-- Insertions one after the other. -/
theorem specAnswers_inserts (xs : List (ℕ × ℤ)) (t : BinaryTree (ℕ × ℤ)) :
    (specAnswers searchTree t (inserts xs)).1 = insertAll Prod.snd xs t := by
  induction xs generalizing t with
  | nil => rfl
  | cons x xs ih =>
    rw [insertAll, List.foldl_cons]
    exact ih _

/-- Whatever was called before: `preorder` prints a list, and the insertion of its values into an
empty tree, wherever `malloc` puts the nodes, gives a tree of the same shape with the same
values. -/
theorem preorder_rebuilds_tree (calls : List Call)
    (hcalls : LegalCalls MallocOk call empty calls) :
    ∃ s as printed, answers call empty calls = some (s, as) ∧
      preorder s s.root = some printed ∧
      ∀ xs : List (ℕ × ℤ), xs.map Prod.snd = printed →
        LegalCalls MallocOk call empty (inserts xs) →
        ∃ s' as' tree, answers call empty (inserts xs) = some (s', as') ∧
          treeOf s = some tree ∧ treeOf s' = some tree := by
  obtain ⟨s, hanswers, h⟩ := call_simulates_searchTree.answers holds_empty hcalls
  refine ⟨s, _, _, hanswers, h.preorder, fun xs hxs hlegal => ?_⟩
  obtain ⟨s', hanswers', h'⟩ := call_simulates_searchTree.answers holds_empty hlegal
  rw [specAnswers_inserts] at h'
  refine ⟨s', _, _, hanswers', h.treeOf, ?_⟩
  rw [h'.treeOf, h.ordered.map_insertAll hxs]

/-- The tree with 5 over 3 and 8, and 4 under 3; 8 was inserted before 4. -/
theorem preorder_rebuilds_tree_four :
    ∃ s' as', answers call empty (inserts [(11, 5), (12, 3), (13, 4), (14, 8)]) = some (s', as') ∧
      treeOf s' = some (.node 5 (.node 3 .nil (.node 4 .nil .nil)) (.node 8 .nil .nil)) := by
  let calls : List Call := [.insert 5 1, .insert 3 2, .insert 8 3, .insert 4 4]
  obtain ⟨s, as, printed, hs, hp, hrebuild⟩ := preorder_rebuilds_tree calls
    ⟨⟨by decide, rfl⟩, ⟨by decide, rfl⟩, ⟨by decide, rfl⟩, ⟨by decide, rfl⟩, trivial⟩
  have hprinted : (answers call empty calls).bind (fun p => preorder p.1 p.1.root) =
      some [5, 3, 4, 8] := by decide
  have htree : (answers call empty calls).bind (fun p => treeOf p.1) =
      some (.node 5 (.node 3 .nil (.node 4 .nil .nil)) (.node 8 .nil .nil)) := by decide
  rw [hs, Option.bind_some] at hprinted htree
  obtain rfl := Option.some.inj (hp.symm.trans hprinted)
  obtain ⟨s', as', tree, hs', hold, hnew⟩ := hrebuild [(11, 5), (12, 3), (13, 4), (14, 8)] rfl
    ⟨⟨by decide, rfl⟩, ⟨by decide, rfl⟩, ⟨by decide, rfl⟩, ⟨by decide, rfl⟩, trivial⟩
  exact ⟨s', as', hs', hnew.trans (hold.symm.trans htree)⟩

end LinuxPrograms.Bitree
