import Mathlib.Data.List.Nodup
import Mathlib.Logic.Function.Basic
import Mathlib.Tactic.Common

/-! Singly linked chains in a heap. A heap maps the addresses in use to nodes, and `link` is the
address a node holds. -/
namespace LinuxPrograms.Lib

variable {ν : Type*} {link : ν → ℕ}

/-- The cells of a chain from address `p` on, up to address `q`. -/
def Chain (link : ν → ℕ) (heap : ℕ → Option ν) (p : ℕ) : List (ℕ × ν) → ℕ → Prop
  | [], q => p = q
  | c :: cells, q => p = c.1 ∧ heap c.1 = some c.2 ∧ Chain link heap (link c.2) cells q

def addresses (cells : List (ℕ × ν)) : List ℕ := cells.map Prod.fst

theorem chain_append {heap : ℕ → Option ν} {p q : ℕ} {cells cells' : List (ℕ × ν)} :
    Chain link heap p (cells ++ cells') q ↔
      ∃ r, Chain link heap p cells r ∧ Chain link heap r cells' q := by
  induction cells generalizing p with
  | nil => exact ⟨fun h => ⟨p, rfl, h⟩, fun ⟨r, hpr, h⟩ => hpr ▸ h⟩
  | cons c cells ih =>
    constructor
    · rintro ⟨hp, hc, hrest⟩
      obtain ⟨r, hr, hr'⟩ := ih.mp hrest
      exact ⟨r, ⟨hp, hc, hr⟩, hr'⟩
    · rintro ⟨r, ⟨hp, hc, hr⟩, hr'⟩
      exact ⟨hp, hc, ih.mpr ⟨r, hr, hr'⟩⟩

/-- Cells elsewhere do not matter. -/
theorem Chain.congr {heap heap' : ℕ → Option ν} {p q : ℕ} {cells : List (ℕ × ν)}
    (h : Chain link heap p cells q) (hsame : ∀ a ∈ addresses cells, heap' a = heap a) :
    Chain link heap' p cells q := by
  induction cells generalizing p with
  | nil => exact h
  | cons c cells ih =>
    obtain ⟨hp, hc, hrest⟩ := h
    have hfirst : heap' c.1 = heap c.1 := hsame c.1 List.mem_cons_self
    exact ⟨hp, hfirst.trans hc, ih hrest fun a ha => hsame a (List.mem_cons_of_mem _ ha)⟩

theorem Chain.update {heap : ℕ → Option ν} {p q a : ℕ} {cells : List (ℕ × ν)}
    (h : Chain link heap p cells q) (ha : a ∉ addresses cells) (v : Option ν) :
    Chain link (Function.update heap a v) p cells q := by
  refine h.congr fun b hb => Function.update_of_ne ?_ _ _
  rintro rfl
  exact ha hb

/-- Every cell of a chain is in use. -/
theorem Chain.heap_eq {heap : ℕ → Option ν} {p q : ℕ} {cells : List (ℕ × ν)}
    (h : Chain link heap p cells q) : ∀ c ∈ cells, heap c.1 = some c.2 := by
  induction cells generalizing p with
  | nil => exact nofun
  | cons c cells ih =>
    obtain ⟨-, hc, hrest⟩ := h
    exact List.forall_mem_cons.mpr ⟨hc, ih hrest⟩

theorem Chain.not_mem_of_free {heap : ℕ → Option ν} {p q a : ℕ} {cells : List (ℕ × ν)}
    (h : Chain link heap p cells q) (ha : heap a = none) : a ∉ addresses cells := by
  intro hmem
  obtain ⟨c, hc, rfl⟩ := List.mem_map.mp hmem
  rw [h.heap_eq c hc] at ha
  cases ha

theorem addresses_append (cells cells' : List (ℕ × ν)) :
    addresses (cells ++ cells') = addresses cells ++ addresses cells' :=
  List.map_append

/-- A new cell is linked to the last one. -/
theorem Chain.push {heap : ℕ → Option ν} {p t a : ℕ} {cells : List (ℕ × ν)} {n n' m : ν}
    (h : Chain link heap p (cells ++ [(t, n)]) 0) (hnodup : (addresses (cells ++ [(t, n)])).Nodup)
    (ha : heap a = none) (hn' : link n' = a) (hm : link m = 0) :
    Chain link (Function.update (Function.update heap t (some n')) a (some m)) p
        (cells ++ [(t, n')] ++ [(a, m)]) 0 ∧
      (addresses (cells ++ [(t, n')] ++ [(a, m)])).Nodup := by
  have hfree := h.not_mem_of_free ha
  have hsame : addresses (cells ++ [(t, n')]) = addresses (cells ++ [(t, n)]) := by
    simp [addresses]
  constructor
  · rw [addresses_append, List.mem_append, not_or] at hfree
    rw [addresses_append, List.nodup_append] at hnodup
    have ht : t ∉ addresses cells :=
      fun hmem => hnodup.2.2 t hmem t (List.mem_singleton_self _) rfl
    have hta : t ≠ a := by
      rintro rfl
      exact hfree.2 (List.mem_singleton_self _)
    -- the chain up to the last cell is as it was
    obtain ⟨r, hr, hrt, -⟩ := chain_append.mp h
    rw [show r = t from hrt] at hr
    rw [List.append_assoc, chain_append]
    refine ⟨t, (hr.update ht _).update hfree.1 _, rfl, ?_, hn', ?_, hm⟩
    · rw [Function.update_of_ne hta, Function.update_self]
    · exact Function.update_self _ _ _
  · rw [addresses_append, hsame]
    exact hnodup.append (List.nodup_singleton a) (List.disjoint_singleton.mpr hfree)

/-- The second cell is unlinked and freed. -/
theorem Chain.pop {heap : ℕ → Option ν} {q : ℕ} {p a : ℕ} {n n' m : ν} {cells : List (ℕ × ν)}
    (h : Chain link heap p ((p, n) :: (a, m) :: cells) q)
    (hnodup : (addresses ((p, n) :: (a, m) :: cells)).Nodup) (hn' : link n' = link m) :
    Chain link (Function.update (Function.update heap p (some n')) a none) p ((p, n') :: cells) q ∧
      (addresses ((p, n') :: cells)).Nodup := by
  obtain ⟨-, -, -, -, hrest⟩ := h
  rw [addresses, List.map_cons, List.map_cons, List.nodup_cons, List.nodup_cons, List.mem_cons,
    not_or] at hnodup
  obtain ⟨⟨hpa, hp⟩, ha, hcells⟩ := hnodup
  refine ⟨⟨rfl, ?_, ?_⟩, List.nodup_cons.mpr ⟨hp, hcells⟩⟩
  · rw [Function.update_of_ne hpa, Function.update_self]
  · rw [hn']
    exact (hrest.update hp _).update ha _

/-! The addresses of a chain. -/

/-- `l` are the addresses of a chain from `p` up to `q`. -/
def Links (link : ν → ℕ) (heap : ℕ → Option ν) (p : ℕ) (l : List ℕ) (q : ℕ) : Prop :=
  ∃ cells, addresses cells = l ∧ Chain link heap p cells q

section Links

variable {heap : ℕ → Option ν} {p q a : ℕ} {l l' : List ℕ}

theorem links_nil : Links link heap p [] q ↔ p = q := by
  constructor
  · rintro ⟨cells, hcells, h⟩
    obtain rfl := List.map_eq_nil_iff.mp hcells
    exact h
  · exact fun h => ⟨[], rfl, h⟩

theorem links_cons : Links link heap p (a :: l) q ↔
    p = a ∧ ∃ n, heap a = some n ∧ Links link heap (link n) l q := by
  constructor
  · rintro ⟨cells, hcells, h⟩
    obtain ⟨⟨b, n⟩, cells, rfl, rfl, rfl⟩ := List.map_eq_cons_iff.mp hcells
    obtain ⟨hp, hn, hrest⟩ := h
    exact ⟨hp, n, hn, cells, rfl, hrest⟩
  · rintro ⟨hp, n, hn, cells, rfl, hrest⟩
    exact ⟨(a, n) :: cells, rfl, hp, hn, hrest⟩

theorem links_append : Links link heap p (l ++ l') q ↔
    ∃ r, Links link heap p l r ∧ Links link heap r l' q := by
  constructor
  · rintro ⟨cells, hcells, h⟩
    obtain ⟨before, after, rfl, rfl, rfl⟩ := List.map_eq_append_iff.mp hcells
    obtain ⟨r, hr, hr'⟩ := chain_append.mp h
    exact ⟨r, ⟨before, rfl, hr⟩, ⟨after, rfl, hr'⟩⟩
  · rintro ⟨r, ⟨before, rfl, hr⟩, ⟨after, rfl, hr'⟩⟩
    exact ⟨before ++ after, addresses_append _ _, chain_append.mpr ⟨r, hr, hr'⟩⟩

theorem Links.update (h : Links link heap p l q) (ha : a ∉ l) (v : Option ν) :
    Links link (Function.update heap a v) p l q := by
  obtain ⟨cells, rfl, hchain⟩ := h
  exact ⟨cells, rfl, hchain.update ha v⟩

/-- Up to an address that is not in them, two chains from one place are the same. -/
theorem Links.unique (h : Links link heap p l q) (h' : Links link heap p l' q) (hq : q ∉ l)
    (hq' : q ∉ l') : l = l' := by
  induction l generalizing p l' with
  | nil =>
    obtain rfl := links_nil.mp h
    cases l' with
    | nil => rfl
    | cons b l' =>
      obtain ⟨rfl, -⟩ := links_cons.mp h'
      exact absurd List.mem_cons_self hq'
  | cons a l ih =>
    obtain ⟨rfl, n, hn, hrest⟩ := links_cons.mp h
    cases l' with
    | nil =>
      obtain rfl := links_nil.mp h'
      exact absurd List.mem_cons_self hq
    | cons b l' =>
      obtain ⟨rfl, n', hn', hrest'⟩ := links_cons.mp h'
      obtain rfl := Option.some.inj (hn.symm.trans hn')
      rw [ih hrest hrest' (List.not_mem_of_not_mem_cons hq) (List.not_mem_of_not_mem_cons hq')]

/-- A chain that ends comes nowhere twice. -/
theorem Links.nodup (h : Links link heap p l q) (hq : q ∉ l) : l.Nodup := by
  induction l generalizing p with
  | nil => exact List.nodup_nil
  | cons a l ih =>
    obtain ⟨-, n, -, hrest⟩ := links_cons.mp h
    refine List.nodup_cons.mpr ⟨fun hmem => ?_, ih hrest (List.not_mem_of_not_mem_cons hq)⟩
    -- the chain from the second time on would be the chain from the first time on
    obtain ⟨before, after, rfl⟩ := List.append_of_mem hmem
    obtain ⟨r, -, hagain⟩ := links_append.mp hrest
    have hfirst : Links link heap a (a :: (before ++ a :: after)) q := by
      obtain ⟨rfl, -⟩ := links_cons.mp h
      exact h
    have hsecond : Links link heap a (a :: after) q := by
      obtain ⟨rfl, -⟩ := links_cons.mp hagain
      exact hagain
    have hq' : q ∉ a :: after := fun hm => hq (List.mem_cons_of_mem _ (List.mem_append_right _ hm))
    have hlength := congrArg List.length (hfirst.unique hsecond hq hq')
    simp only [List.length_cons, List.length_append] at hlength
    omega

/-- A node is put before a chain. -/
theorem Links.cons {n : ν} (h : Links link heap p l q) (ha : a ∉ l) (hn : link n = p) :
    Links link (Function.update heap a (some n)) a (a :: l) q := by
  refine links_cons.mpr ⟨rfl, n, Function.update_self _ _ _, ?_⟩
  rw [hn]
  exact h.update ha _

/-- The node after `b` is taken out and put before the chain. -/
theorem Links.moveToFront {b e : ℕ} {xs ys : List ℕ} {m' n n' : ν}
    (h : Links link heap p (xs ++ b :: e :: ys) q) (hnodup : (xs ++ b :: e :: ys).Nodup)
    (he : heap e = some n) (hm' : link m' = link n) (hn' : link n' = p) :
    Links link (Function.update (Function.update heap b (some m')) e (some n')) e
      (e :: (xs ++ b :: ys)) q := by
  obtain ⟨-, hbs, hdisj⟩ := List.nodup_append.mp hnodup
  obtain ⟨hb, hes⟩ := List.nodup_cons.mp hbs
  obtain ⟨he', -⟩ := List.nodup_cons.mp hes
  have hbx : b ∉ xs := fun hmem => hdisj b hmem b List.mem_cons_self rfl
  have hex : e ∉ xs := fun hmem =>
    hdisj e hmem e (List.mem_cons_of_mem _ List.mem_cons_self) rfl
  have heb : e ≠ b := fun heq => hb (heq ▸ List.mem_cons_self)
  obtain ⟨r, hr, hrest⟩ := links_append.mp h
  obtain ⟨rfl, _, -, hrest⟩ := links_cons.mp hrest
  obtain ⟨-, n₀, hn₀, hys⟩ := links_cons.mp hrest
  obtain rfl := Option.some.inj (he.symm.trans hn₀)
  have hmoved : Links link (Function.update heap r (some m')) p (xs ++ r :: ys) q := by
    refine links_append.mpr ⟨r, hr.update hbx _, ?_⟩
    rw [← hm'] at hys
    have hry : r ∉ ys := fun hmem => hb (List.mem_cons_of_mem _ hmem)
    exact links_cons.mpr ⟨rfl, m', Function.update_self _ _ _, hys.update hry _⟩
  refine hmoved.cons ?_ hn'
  rw [List.mem_append, List.mem_cons, not_or, not_or]
  exact ⟨hex, heb, he'⟩

end Links

end LinuxPrograms.Lib
