import Mathlib.Data.List.Sort
import Mathlib.Data.List.Perm.Basic
import Mathlib.Data.List.TakeWhile
import Mathlib.Order.Basic
import Mathlib.Tactic.Common

/-! An ordered multimap as `std::multimap` keeps it: entries in key order, entries of one key
in insertion order. An iterator is the list of entries from its position on, so the range scans
that erase while they iterate are recursions over that list. -/
namespace LinuxPrograms.Lib

variable {K V : Type*} [LinearOrder K]

structure Multimap (K V : Type*) [LinearOrder K] where
  entries : List (K × V)
  sorted : entries.Pairwise (fun a b => a.1 ≤ b.1)

namespace Multimap

@[ext] theorem ext {m m' : Multimap K V} (h : m.entries = m'.entries) : m = m' := by
  cases m
  cases m'
  simpa using h

def empty : Multimap K V := ⟨[], List.Pairwise.nil⟩

/-- Erasing entries leaves the rest in key order. -/
def sublist (m : Multimap K V) (l : List (K × V)) (h : l.Sublist m.entries) : Multimap K V :=
  ⟨l, m.sorted.sublist h⟩

/-- Insertion at the upper bound of the key. -/
def insertEntry (k : K) (v : V) : List (K × V) → List (K × V)
  | [] => [(k, v)]
  | e :: l => if e.1 ≤ k then e :: insertEntry k v l else (k, v) :: e :: l

theorem insertEntry_perm (k : K) (v : V) (l : List (K × V)) :
    (insertEntry k v l).Perm ((k, v) :: l) := by
  induction l with
  | nil => exact List.Perm.refl _
  | cons e l ih =>
    unfold insertEntry
    split
    · exact (ih.cons e).trans (List.Perm.swap _ _ _)
    · exact List.Perm.refl _

theorem insertEntry_sorted (k : K) (v : V) (l : List (K × V))
    (hl : l.Pairwise (fun a b => a.1 ≤ b.1)) :
    (insertEntry k v l).Pairwise (fun a b => a.1 ≤ b.1) := by
  induction l with
  | nil => exact List.pairwise_singleton _ _
  | cons e l ih =>
    obtain ⟨he, hl⟩ := List.pairwise_cons.mp hl
    unfold insertEntry
    split
    · rename_i hek
      refine List.pairwise_cons.mpr ⟨fun b hb => ?_, ih hl⟩
      rcases List.mem_cons.mp ((insertEntry_perm k v l).mem_iff.mp hb) with rfl | hb
      · exact hek
      · exact he b hb
    · rename_i hek
      have hke : k ≤ e.1 := le_of_not_ge hek
      refine List.pairwise_cons.mpr ⟨fun b hb => ?_, List.pairwise_cons.mpr ⟨he, hl⟩⟩
      rcases List.mem_cons.mp hb with rfl | hb
      · exact hke
      · exact hke.trans (he b hb)

def insert (m : Multimap K V) (k : K) (v : V) : Multimap K V :=
  ⟨insertEntry k v m.entries, insertEntry_sorted k v m.entries m.sorted⟩

theorem insert_perm (m : Multimap K V) (k : K) (v : V) :
    (m.insert k v).entries.Perm ((k, v) :: m.entries) :=
  insertEntry_perm k v m.entries

/-- The entries before `lower_bound(k)`. -/
def below (m : Multimap K V) (k : K) : List (K × V) :=
  m.entries.takeWhile (fun e => decide (e.1 < k))

/-- The iterator `lower_bound(k)`. -/
def lowerBound (m : Multimap K V) (k : K) : List (K × V) :=
  m.entries.dropWhile (fun e => decide (e.1 < k))

theorem below_append_lowerBound (m : Multimap K V) (k : K) :
    m.below k ++ m.lowerBound k = m.entries :=
  List.takeWhile_append_dropWhile

theorem lt_of_mem_below (m : Multimap K V) (k : K) : ∀ e ∈ m.below k, e.1 < k := by
  intro e he
  simpa using List.mem_takeWhile_imp he

theorem lowerBound_sorted (m : Multimap K V) (k : K) :
    (m.lowerBound k).Pairwise (fun a b => a.1 ≤ b.1) :=
  m.sorted.sublist (List.dropWhile_sublist _)

theorem le_of_mem_lowerBound (m : Multimap K V) (k : K) : ∀ e ∈ m.lowerBound k, k ≤ e.1 := by
  intro e he
  have hs := m.lowerBound_sorted k
  cases hl : m.lowerBound k with
  | nil => rw [hl] at he; cases he
  | cons a l =>
    have ha : k ≤ a.1 := by
      have hn := List.head?_dropWhile_not (fun e : K × V => decide (e.1 < k)) m.entries
      have hd : m.entries.dropWhile (fun e => decide (e.1 < k)) = a :: l := hl
      rw [hd] at hn
      simpa using hn
    rw [hl] at he hs
    rcases List.mem_cons.mp he with rfl | he
    · exact ha
    · exact ha.trans ((List.pairwise_cons.mp hs).1 e he)

/-- Replacing what stands from `lower_bound(k)` on by a sublist of it. -/
def editFrom (m : Multimap K V) (k : K) (l : List (K × V)) (h : l.Sublist (m.lowerBound k)) :
    Multimap K V :=
  m.sublist (m.below k ++ l) (by
    rw [← m.below_append_lowerBound k]
    exact h.append_left _)

/-- `for (it = lower_bound(k); it != upper_bound(k);) if (p) erase(it++); else it++;` from the
position `it` on. -/
def eraseScan (k : K) (p : V → Bool) : List (K × V) → List (K × V)
  | [] => []
  | e :: l =>
    if k < e.1 then e :: l
    else if p e.2 then eraseScan k p l
    else e :: eraseScan k p l

theorem eraseScan_sublist (k : K) (p : V → Bool) (l : List (K × V)) :
    (eraseScan k p l).Sublist l := by
  induction l with
  | nil => exact List.Sublist.refl _
  | cons e l ih =>
    unfold eraseScan
    split
    · exact List.Sublist.refl _
    · split
      · exact ih.cons e
      · exact ih.cons_cons e

/-- From `lower_bound(k)` on, the scan erases the entries of `k` that satisfy `p` and no others. -/
theorem eraseScan_eq_filter (k : K) (p : V → Bool) (l : List (K × V))
    (hs : l.Pairwise (fun a b => a.1 ≤ b.1)) (hk : ∀ e ∈ l, k ≤ e.1) :
    eraseScan k p l = l.filter (fun e => !(decide (e.1 = k) && p e.2)) := by
  induction l with
  | nil => rfl
  | cons e l ih =>
    obtain ⟨he, hl⟩ := List.pairwise_cons.mp hs
    have ih := ih hl (fun b hb => hk b (List.mem_cons_of_mem _ hb))
    unfold eraseScan
    split
    · rename_i hlt
      refine (List.filter_eq_self.mpr fun b hb => ?_).symm
      have hb : k < b.1 := by
        rcases List.mem_cons.mp hb with rfl | hb
        · exact hlt
        · exact hlt.trans_le (he b hb)
      simp [hb.ne']
    · rename_i hge
      have hek : e.1 = k := le_antisymm (le_of_not_gt hge) (hk e List.mem_cons_self)
      split
      · rename_i hp
        simp [hek, hp, ih]
      · rename_i hp
        simp [hek, hp, ih]

def eraseRange (m : Multimap K V) (k : K) (p : V → Bool) : Multimap K V :=
  m.editFrom k (eraseScan k p (m.lowerBound k)) (eraseScan_sublist k p _)

theorem eraseRange_entries (m : Multimap K V) (k : K) (p : V → Bool) :
    (m.eraseRange k p).entries = m.entries.filter (fun e => !(decide (e.1 = k) && p e.2)) := by
  have hb : (m.below k).filter (fun e => !(decide (e.1 = k) && p e.2)) = m.below k := by
    refine List.filter_eq_self.mpr fun e he => ?_
    simp [(m.lt_of_mem_below k e he).ne]
  calc
    (m.eraseRange k p).entries = m.below k ++ eraseScan k p (m.lowerBound k) := rfl
    _ = (m.below k ++ m.lowerBound k).filter (fun e => !(decide (e.1 = k) && p e.2)) := by
      rw [List.filter_append, hb,
        eraseScan_eq_filter k p _ (m.lowerBound_sorted k) (m.le_of_mem_lowerBound k)]
    _ = _ := by rw [m.below_append_lowerBound k]

theorem mem_lowerBound_iff (m : Multimap K V) (k : K) (v : V) :
    (k, v) ∈ m.lowerBound k ↔ (k, v) ∈ m.entries := by
  rw [← m.below_append_lowerBound k, List.mem_append]
  refine ⟨Or.inr, ?_⟩
  rintro (hb | hl)
  · exact absurd (m.lt_of_mem_below k _ hb) (lt_irrefl _)
  · exact hl

section EraseFirst

variable [DecidableEq V]

/-- `for (it = lower_bound(k); it != upper_bound(k); ++it) if (it->second == v) erase(it)` and
stop; `none` when the loop ends without a hit. -/
def eraseFirstScan (k : K) (v : V) : List (K × V) → Option (List (K × V))
  | [] => none
  | e :: l =>
    if k < e.1 then none
    else if e.2 = v then some l
    else (eraseFirstScan k v l).map (e :: ·)

theorem eraseFirstScan_sublist (k : K) (v : V) (l l' : List (K × V))
    (h : eraseFirstScan k v l = some l') : l'.Sublist l := by
  induction l generalizing l' with
  | nil => cases h
  | cons e l ih =>
    unfold eraseFirstScan at h
    split at h
    · cases h
    · split at h
      · cases h
        exact List.sublist_cons_self _ _
      · obtain ⟨l'', hl, rfl⟩ := Option.map_eq_some_iff.mp h
        exact (ih l'' hl).cons_cons e

theorem eraseFirstScan_eq (k : K) (v : V) (l : List (K × V))
    (hs : l.Pairwise (fun a b => a.1 ≤ b.1)) (hk : ∀ e ∈ l, k ≤ e.1) :
    eraseFirstScan k v l = if (k, v) ∈ l then some (l.erase (k, v)) else none := by
  induction l with
  | nil => rfl
  | cons e l ih =>
    obtain ⟨he, hl⟩ := List.pairwise_cons.mp hs
    have ih := ih hl (fun b hb => hk b (List.mem_cons_of_mem _ hb))
    unfold eraseFirstScan
    split
    · rename_i hlt
      have hn : (k, v) ∉ e :: l := by
        intro hm
        rcases List.mem_cons.mp hm with rfl | hm
        · exact lt_irrefl _ hlt
        · exact absurd (he _ hm) (not_le.mpr hlt)
      rw [if_neg hn]
    · rename_i hge
      have hek : e.1 = k := le_antisymm (le_of_not_gt hge) (hk e List.mem_cons_self)
      split
      · rename_i hv
        have heq : e = (k, v) := Prod.ext hek hv
        simp [heq]
      · rename_i hv
        have hne : e ≠ (k, v) := fun h => hv (congrArg Prod.snd h)
        rw [ih, List.erase_cons_tail (by simpa using hne)]
        by_cases hm : (k, v) ∈ l
        · simp [hm]
        · simp [hm, hne.symm]

def eraseFirst (m : Multimap K V) (k : K) (v : V) : Option (Multimap K V) :=
  match h : eraseFirstScan k v (m.lowerBound k) with
  | some l => some (m.editFrom k l (eraseFirstScan_sublist k v _ l h))
  | none => none

/-- The scan for one pair erases it when the map holds it, and else finds nothing. -/
theorem eraseFirst_eq (m : Multimap K V) (k : K) (v : V) :
    (m.eraseFirst k v).map entries =
      if (k, v) ∈ m.entries then some (m.entries.erase (k, v)) else none := by
  have hscan := eraseFirstScan_eq k v _ (m.lowerBound_sorted k) (m.le_of_mem_lowerBound k)
  have hb : (k, v) ∉ m.below k := fun h => absurd (m.lt_of_mem_below k _ h) (lt_irrefl _)
  have herase : m.below k ++ (m.lowerBound k).erase (k, v) = m.entries.erase (k, v) := by
    rw [← List.erase_append_right _ hb, m.below_append_lowerBound k]
  unfold eraseFirst
  split
  · rename_i l hl
    rw [hl] at hscan
    by_cases hm : (k, v) ∈ m.entries
    · rw [if_pos ((m.mem_lowerBound_iff k v).mpr hm), Option.some.injEq] at hscan
      rw [if_pos hm, ← herase, ← hscan]
      rfl
    · rw [if_neg (fun h => hm ((m.mem_lowerBound_iff k v).mp h))] at hscan
      cases hscan
  · rename_i hl
    rw [hl] at hscan
    by_cases hm : (k, v) ∈ m.entries
    · rw [if_pos ((m.mem_lowerBound_iff k v).mpr hm)] at hscan
      cases hscan
    · rw [if_neg hm]
      rfl

end EraseFirst

section Arranges

/-- `m` lists `a` by key, entries of one key in the order `a` has them. -/
def Arranges (m : Multimap K V) (a : List (K × V)) : Prop :=
  ∀ k, m.entries.filter (fun e => decide (e.1 = k)) = a.filter (fun e => decide (e.1 = k))

theorem arranges_empty : (empty : Multimap K V).Arranges [] := fun _ => rfl

theorem Arranges.mem_iff {m : Multimap K V} {a : List (K × V)} (h : m.Arranges a) (e : K × V) :
    e ∈ m.entries ↔ e ∈ a := by
  have he := congrArg (fun l => e ∈ l) (h e.1)
  simpa using he

theorem Arranges.perm {m : Multimap K V} {a : List (K × V)} (h : m.Arranges a) :
    m.entries.Perm a := by
  classical
  refine List.perm_iff_count.mpr fun e => ?_
  have hc := congrArg (fun l => l.count e) (h e.1)
  rwa [List.count_filter (by simp), List.count_filter (by simp)] at hc

theorem filter_insertEntry (k k' : K) (v : V) (l : List (K × V))
    (hs : l.Pairwise (fun a b => a.1 ≤ b.1)) :
    (insertEntry k v l).filter (fun e => decide (e.1 = k')) =
      l.filter (fun e => decide (e.1 = k')) ++
        ([(k, v)] : List (K × V)).filter (fun e => decide (e.1 = k')) := by
  induction l with
  | nil => rfl
  | cons e l ih =>
    obtain ⟨he, hl⟩ := List.pairwise_cons.mp hs
    unfold insertEntry
    split
    · rw [List.filter_cons, List.filter_cons, ih hl]
      split <;> rfl
    · rename_i hek
      -- every key from here on is above `k`, so the new pair is the last one of its key
      have hgt : ∀ b ∈ e :: l, k < b.1 := by
        intro b hb
        rcases List.mem_cons.mp hb with rfl | hb
        · exact not_le.mp hek
        · exact (not_le.mp hek).trans_le (he b hb)
      by_cases hkk : k = k'
      · have hnil : (e :: l).filter (fun e => decide (e.1 = k')) = [] := by
          refine List.filter_eq_nil_iff.mpr fun b hb => ?_
          have := (hgt b hb).ne'
          simpa [← hkk] using this
        rw [List.filter_cons, hnil]
        simp [hkk]
      · rw [List.filter_cons]
        simp [hkk]

theorem Arranges.insert {m : Multimap K V} {a : List (K × V)} (h : m.Arranges a) (k : K) (v : V) :
    (m.insert k v).Arranges (a ++ [(k, v)]) := by
  intro k'
  rw [List.filter_append, ← h k']
  exact filter_insertEntry k k' v m.entries m.sorted

/-- Erasing by a condition on whole entries commutes with the arrangement. -/
theorem Arranges.filter {m m' : Multimap K V} {a : List (K × V)} (h : m.Arranges a)
    (q : K × V → Bool) (hm : m'.entries = m.entries.filter q) : m'.Arranges (a.filter q) := by
  intro k
  rw [hm, List.filter_comm, h k, List.filter_comm]

variable [DecidableEq V]

/-- Erasing the first entry takes the earliest pair of the smallest key out of `a`. -/
theorem Arranges.tail {m m' : Multimap K V} {a : List (K × V)} (h : m.Arranges a) {p : K × V}
    {rest : List (K × V)} (hm : m.entries = p :: rest) (hm' : m'.entries = rest) :
    m'.Arranges (a.erase p) := by
  intro k
  have hk := h k
  rw [hm, List.filter_cons] at hk
  have he : (a.erase p).filter (fun e => decide (e.1 = k)) =
      (a.filter (fun e => decide (e.1 = k))).erase p := List.erase_filter.symm
  rw [hm', he, ← hk]
  split
  · rw [List.erase_cons_head]
  · rename_i hpk
    refine (List.erase_of_not_mem fun hmem => ?_).symm
    exact hpk (List.mem_filter.mp hmem).2

omit [DecidableEq V] in
theorem Arranges.head_le {m : Multimap K V} {a : List (K × V)} (h : m.Arranges a) {p : K × V}
    {rest : List (K × V)} (hm : m.entries = p :: rest) : ∀ b ∈ a, p.1 ≤ b.1 := by
  intro b hb
  have hs := m.sorted
  have hmem := (h.mem_iff b).mpr hb
  rw [hm] at hs hmem
  rcases List.mem_cons.mp hmem with rfl | hmem
  · exact le_rfl
  · exact (List.pairwise_cons.mp hs).1 b hmem

end Arranges

end Multimap

end LinuxPrograms.Lib
