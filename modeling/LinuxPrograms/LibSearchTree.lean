import Mathlib.Data.Finset.Sort
import Mathlib.Data.Tree.Basic
import Mathlib.Order.Lattice

/-! Search trees: binary trees whose elements carry a key of a linear order. Insertion keeps them
ordered, and what they list from left to right is the set of the keys, sorted. -/
namespace LinuxPrograms.Lib

variable {α κ : Type*}

/-- The elements from left to right. -/
def elements : BinaryTree α → List α
  | .nil => []
  | .node y l r => elements l ++ y :: elements r

theorem height_le (t : BinaryTree α) : t.height ≤ (elements t).length := by
  induction t with
  | nil => exact le_rfl
  | node y l r ihl ihr =>
    rw [elements, List.length_append, List.length_cons, BinaryTree.height]
    omega

variable (key : α → κ)

/-- The keys from left to right. -/
def keys (t : BinaryTree α) : List κ := (elements t).map key

theorem keys_node (y : α) (l r : BinaryTree α) :
    keys key (.node y l r) = keys key l ++ key y :: keys key r := by
  rw [keys, elements, List.map_append, List.map_cons]
  rfl

variable [LinearOrder κ]

/-- `x` goes to the left of greater keys and to the right of smaller ones; an equal key stays. -/
def treeInsert (x : α) : BinaryTree α → BinaryTree α
  | .nil => .node x .nil .nil
  | .node y l r =>
    if key x < key y then .node y (treeInsert x l) r
    else if key y < key x then .node y l (treeInsert x r)
    else .node y l r

/-- Each key is greater than all in the left subtree and less than all in the right one. -/
def Ordered : BinaryTree α → Prop
  | .nil => True
  | .node y l r =>
    ((∀ x ∈ elements l, key x < key y) ∧ ∀ x ∈ elements r, key y < key x) ∧
      Ordered l ∧ Ordered r

/-- One element more, or the key was there. -/
theorem treeInsert_cases (x : α) (t : BinaryTree α) :
    (elements (treeInsert key x t)).Perm (x :: elements t) ∨
      (treeInsert key x t = t ∧ key x ∈ keys key t) := by
  induction t with
  | nil => exact .inl (.refl _)
  | node y l r ihl ihr =>
    rw [keys_node]
    unfold treeInsert
    split
    · refine ihl.imp (fun hperm => hperm.append_right _) fun hsame => ?_
      exact ⟨by rw [hsame.1], List.mem_append_left _ hsame.2⟩
    · next hle =>
      split
      · refine ihr.imp (fun hperm => ?_) fun hsame => ?_
        · have hmove : (elements l ++ y :: elements (treeInsert key x r)).Perm
              (elements l ++ x :: y :: elements r) :=
            ((hperm.cons y).trans (List.Perm.swap x y _)).append_left _
          exact hmove.trans List.perm_middle
        · refine ⟨by rw [hsame.1], ?_⟩
          exact List.mem_append_right _ (List.mem_cons_of_mem _ hsame.2)
      · next hge =>
        have heq : key x = key y := le_antisymm (not_lt.mp hge) (not_lt.mp hle)
        refine .inr ⟨rfl, List.mem_append_right _ ?_⟩
        rw [heq]
        exact List.mem_cons_self

variable {key} {x : α} {t : BinaryTree α}

theorem mem_treeInsert {y : α} (h : y ∈ elements (treeInsert key x t)) :
    y = x ∨ y ∈ elements t := by
  rcases treeInsert_cases key x t with hperm | ⟨hsame, -⟩
  · exact List.mem_cons.mp (hperm.mem_iff.mp h)
  · rw [hsame] at h
    exact .inr h

/-- The keys are one set more. -/
theorem mem_keys_treeInsert {k : κ} :
    k ∈ keys key (treeInsert key x t) ↔ k = key x ∨ k ∈ keys key t := by
  rcases treeInsert_cases key x t with hperm | ⟨hsame, hmem⟩
  · rw [keys, (hperm.map key).mem_iff, List.map_cons, List.mem_cons]
    rfl
  · rw [hsame]
    refine ⟨.inr, ?_⟩
    rintro (rfl | h)
    · exact hmem
    · exact h

/-- What holds for `x` and for all elements holds for all afterwards. -/
theorem ordered_treeInsert (x : α) (h : Ordered key t) : Ordered key (treeInsert key x t) := by
  induction t with
  | nil =>
    exact ⟨⟨fun y hy => absurd hy List.not_mem_nil, fun y hy => absurd hy List.not_mem_nil⟩,
      trivial, trivial⟩
  | node y l r ihl ihr =>
    obtain ⟨⟨hleft, hright⟩, hl, hr⟩ := h
    unfold treeInsert
    split
    · next hlt =>
      refine ⟨⟨fun z hz => ?_, hright⟩, ihl hl, hr⟩
      rcases mem_treeInsert hz with rfl | hz
      · exact hlt
      · exact hleft z hz
    · split
      · next hgt =>
        refine ⟨⟨hleft, fun z hz => ?_⟩, hl, ihr hr⟩
        rcases mem_treeInsert hz with rfl | hz
        · exact hgt
        · exact hright z hz
      · exact ⟨⟨hleft, hright⟩, hl, hr⟩

theorem Ordered.pairwise (h : Ordered key t) : (keys key t).Pairwise (· < ·) := by
  rw [keys, List.pairwise_map]
  induction t with
  | nil => exact .nil
  | node y l r ihl ihr =>
    obtain ⟨⟨hleft, hright⟩, hl, hr⟩ := h
    refine List.pairwise_append.mpr ⟨ihl hl, List.pairwise_cons.mpr ⟨hright, ihr hr⟩, ?_⟩
    intro x hx z hz
    rcases List.mem_cons.mp hz with rfl | hz
    · exact hleft x hx
    · exact (hleft x hx).trans (hright z hz)

/-- The keys, sorted. -/
theorem Ordered.keys_eq_sort (h : Ordered key t) : keys key t = (keys key t).toFinset.sort := by
  have hlt := h.pairwise
  have hnodup : (keys key t).Nodup := hlt.imp fun hab => hab.ne
  exact ((List.toFinset_sort (· ≤ ·) hnodup).mpr (hlt.imp fun hab => hab.le)).symm


/-! Trees from lists. -/

/-- The elements, each before those of its subtrees. -/
def rootFirst : BinaryTree α → List α
  | .nil => []
  | .node y l r => y :: (rootFirst l ++ rootFirst r)

theorem rootFirst_perm (t : BinaryTree α) : (rootFirst t).Perm (elements t) := by
  induction t with
  | nil => exact .refl _
  | node y l r ihl ihr => exact ((ihl.append ihr).cons y).trans List.perm_middle.symm

theorem rootFirst_map {β : Type*} (f : α → β) (t : BinaryTree α) :
    rootFirst (t.map f) = (rootFirst t).map f := by
  induction t with
  | nil => rfl
  | node y l r ihl ihr =>
    rw [BinaryTree.map, rootFirst, rootFirst, ihl, ihr, List.map_cons, List.map_append]

/-- The elements, each after those of its subtrees. -/
def rootLast : BinaryTree α → List α
  | .nil => []
  | .node y l r => rootLast l ++ rootLast r ++ [y]

theorem rootLast_perm (t : BinaryTree α) : (rootLast t).Perm (elements t) := by
  induction t with
  | nil => exact .refl _
  | node y l r ihl ihr =>
    exact (List.perm_append_singleton y _).trans
      (((ihl.append ihr).cons y).trans List.perm_middle.symm)

theorem rootLast_map {β : Type*} (f : α → β) (t : BinaryTree α) :
    rootLast (t.map f) = (rootLast t).map f := by
  induction t with
  | nil => rfl
  | node y l r ihl ihr =>
    rw [BinaryTree.map, rootLast, rootLast, ihl, ihr, List.map_append, List.map_append]
    rfl

theorem elements_map {β : Type*} (f : α → β) (t : BinaryTree α) :
    elements (t.map f) = (elements t).map f := by
  induction t with
  | nil => rfl
  | node y l r ihl ihr =>
    rw [BinaryTree.map, elements, elements, ihl, ihr, List.map_append, List.map_cons]

variable (key) in
/-- The elements of a list go into a tree, one after the other. -/
def insertAll (xs : List α) (t : BinaryTree α) : BinaryTree α :=
  xs.foldl (fun t x => treeInsert key x t) t

theorem insertAll_append (xs ys : List α) (t : BinaryTree α) :
    insertAll key (xs ++ ys) t = insertAll key ys (insertAll key xs t) :=
  List.foldl_append

section Sides

variable {y : α} {l r : BinaryTree α} {xs : List α}

/-- Smaller elements all go into the left subtree. -/
theorem insertAll_left (h : ∀ x ∈ xs, key x < key y) :
    insertAll key xs (.node y l r) = .node y (insertAll key xs l) r := by
  induction xs generalizing l with
  | nil => rfl
  | cons x xs ih =>
    obtain ⟨hx, hxs⟩ := List.forall_mem_cons.mp h
    have hfirst : treeInsert key x (.node y l r) = .node y (treeInsert key x l) r := if_pos hx
    rw [insertAll, List.foldl_cons, hfirst]
    exact ih hxs

/-- Greater elements all go into the right subtree. -/
theorem insertAll_right (h : ∀ x ∈ xs, key y < key x) :
    insertAll key xs (.node y l r) = .node y l (insertAll key xs r) := by
  induction xs generalizing r with
  | nil => rfl
  | cons x xs ih =>
    obtain ⟨hx, hxs⟩ := List.forall_mem_cons.mp h
    have hfirst : treeInsert key x (.node y l r) = .node y l (treeInsert key x r) :=
      (if_neg hx.not_gt).trans (if_pos hx)
    rw [insertAll, List.foldl_cons, hfirst]
    exact ih hxs

end Sides

/-- An ordered tree is what its elements give when each comes before its subtrees. -/
theorem Ordered.insertAll_rootFirst (h : Ordered key t) : insertAll key (rootFirst t) .nil = t := by
  induction t with
  | nil => rfl
  | node y l r ihl ihr =>
    obtain ⟨⟨hleft, hright⟩, hl, hr⟩ := h
    have hsmaller : ∀ x ∈ rootFirst l, key x < key y :=
      fun x hx => hleft x ((rootFirst_perm l).mem_iff.mp hx)
    have hgreater : ∀ x ∈ rootFirst r, key y < key x :=
      fun x hx => hright x ((rootFirst_perm r).mem_iff.mp hx)
    calc insertAll key (rootFirst (.node y l r)) .nil
        = insertAll key (rootFirst l ++ rootFirst r) (.node y .nil .nil) := rfl
      _ = insertAll key (rootFirst r) (.node y (insertAll key (rootFirst l) .nil) .nil) := by
        rw [insertAll_append, insertAll_left hsmaller]
      _ = .node y (insertAll key (rootFirst l) .nil) (insertAll key (rootFirst r) .nil) :=
        insertAll_right hgreater
      _ = .node y l r := by rw [ihl hl, ihr hr]

/-! Insertion looks at the keys only. -/

theorem treeInsert_map (x : α) (t : BinaryTree α) :
    (treeInsert key x t).map key = treeInsert id (key x) (t.map key) := by
  induction t with
  | nil => rfl
  | node y l r ihl ihr =>
    rw [BinaryTree.map]
    unfold treeInsert
    dsimp only [id]
    split
    · rw [BinaryTree.map, ihl]
    · split
      · rw [BinaryTree.map, ihr]
      · rfl

theorem insertAll_map (xs : List α) (t : BinaryTree α) :
    (insertAll key xs t).map key = insertAll id (xs.map key) (t.map key) := by
  induction xs generalizing t with
  | nil => rfl
  | cons x xs ih =>
    rw [insertAll, List.foldl_cons, List.map_cons, insertAll, List.foldl_cons,
      ← treeInsert_map]
    exact ih _

theorem Ordered.map (h : Ordered key t) : Ordered id (t.map key) := by
  induction t with
  | nil => trivial
  | node y l r ihl ihr =>
    obtain ⟨⟨hleft, hright⟩, hl, hr⟩ := h
    refine ⟨⟨?_, ?_⟩, ihl hl, ihr hr⟩
    · rw [elements_map]
      exact List.forall_mem_map.mpr hleft
    · rw [elements_map]
      exact List.forall_mem_map.mpr hright

/-- Elements with the keys of an ordered tree, each before those of its subtrees, give a tree with
these keys at the same places. -/
theorem Ordered.map_insertAll (h : Ordered key t) {xs : List α}
    (hxs : xs.map key = (rootFirst t).map key) : (insertAll key xs .nil).map key = t.map key := by
  rw [insertAll_map, hxs, ← rootFirst_map]
  exact h.map.insertAll_rootFirst

end LinuxPrograms.Lib
