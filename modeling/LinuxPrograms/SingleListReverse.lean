import LinuxPrograms.LibChain
import LinuxPrograms.LibLoops

/-! The three list reversals (SingleList_reverse.c), read with `while`, `==`, `newHead` and `end`
where the source has `which`, `=`, `newList` and `ned`. Two of them reverse every list; the head
insertion overwrites the `next` that leads to the rest of the list before it goes on. -/
namespace LinuxPrograms.SingleListReverse
open Lib

/-- `LIST`: address 0 is `NULL`. -/
structure LIST where
  data : ℕ
  next : ℕ
deriving DecidableEq, Repr

abbrev Heap := ℕ → Option LIST

/-- `a->next = next`; `none` is an access through a pointer to no node. -/
def setNext (heap : Heap) (a next : ℕ) : Option Heap :=
  (heap a).map fun n => Function.update heap a (some { n with next := next })

/-- `if(head == NULL || head->next == NULL) return head;`, and else what follows, with
`head->next`. -/
def unlessShort (heap : Heap) (head : ℕ) (reverse : ℕ → Option (Heap × ℕ)) :
    Option (Heap × ℕ) :=
  if head = 0 then some (heap, head)
  else do
    let n ← heap head
    if n.next = 0 then return (heap, head)
    else reverse n.next

/-- The variables of `iteration_reverse`. -/
structure Iteration where
  heap : Heap
  beg : ℕ
  mid : ℕ
  endNode : ℕ

/-- A round of its loop. -/
def iterationRound (s : Iteration) : Option (Round Iteration (Heap × ℕ)) := do
  let heap ← setNext s.heap s.mid s.beg
  if s.endNode = 0 then return .left (heap, s.mid)
  else
    let n ← heap s.endNode
    return .again ⟨heap, s.mid, s.endNode, n.next⟩

/-- `iteration_reverse(head)`, with at most `rounds` rounds of the loop: the heap afterwards and
what is returned. -/
def iterationReverse (rounds : ℕ) (heap : Heap) (head : ℕ) : Option (Heap × ℕ) :=
  unlessShort heap head fun next => loop iterationRound rounds ⟨heap, 0, head, next⟩

/-- The variables of `headInsert_reverse`; `temp` is `newHead` at the end of a round. -/
structure HeadInsert where
  heap : Heap
  head : ℕ
  newHead : ℕ

def headInsertRound (s : HeadInsert) : Option (Round HeadInsert (Heap × ℕ)) :=
  if s.head = 0 then some (.left (s.heap, s.newHead))
  else do
    let temp := s.head
    let heap ← setNext s.heap temp s.newHead
    -- `head = head->next` reads what has just been written
    let n ← heap s.head
    return .again ⟨heap, n.next, temp⟩

/-- `headInsert_reverse(head)`. -/
def headInsertReverse (rounds : ℕ) (heap : Heap) (head : ℕ) : Option (Heap × ℕ) :=
  unlessShort heap head fun _ => loop headInsertRound rounds ⟨heap, head, 0⟩

/-- The variables of `local_reverse`. -/
structure Local where
  heap : Heap
  head : ℕ
  beg : ℕ
  endNode : ℕ

def localRound (s : Local) : Option (Round Local (Heap × ℕ)) :=
  if s.endNode = 0 then some (.left (s.heap, s.head))
  else do
    let e ← s.heap s.endNode
    let heap ← setNext s.heap s.beg e.next
    let heap ← setNext heap s.endNode s.head
    let b ← heap s.beg
    return .again ⟨heap, s.endNode, s.beg, b.next⟩

/-- `local_reverse(head)`. -/
def localReverse (rounds : ℕ) (heap : Heap) (head : ℕ) : Option (Heap × ℕ) :=
  unlessShort heap head fun next => loop localRound rounds ⟨heap, head, head, next⟩

/-! What a reversal is. -/

/-- A list that ends with `NULL`, with the addresses of its nodes. -/
structure IsList (heap : Heap) (head : ℕ) (l : List ℕ) : Prop where
  links : Links LIST.next heap head l 0
  null : 0 ∉ l

/-- All data is as it was, and so are the nodes elsewhere. -/
structure Rewired (l : List ℕ) (heap heap' : Heap) : Prop where
  data : ∀ a, (heap' a).map LIST.data = (heap a).map LIST.data
  elsewhere : ∀ a, a ∉ l → heap' a = heap a

/-- The list from `head'` has the nodes of `l` in reverse order. -/
structure Reversed (l : List ℕ) (heap heap' : Heap) (head' : ℕ) : Prop where
  list : IsList heap' head' l.reverse
  rewired : Rewired l heap heap'

/-- With rounds enough the function returns, and what it returns is the reversed list. -/
def Reverses (f : ℕ → Heap → ℕ → Option (Heap × ℕ)) (heap : Heap) (head : ℕ) (l : List ℕ) : Prop :=
  (∃ rounds p, f rounds heap head = some p) ∧
    ∀ rounds p, f rounds heap head = some p → Reversed l heap p.1 p.2

theorem Rewired.refl (l : List ℕ) (heap : Heap) : Rewired l heap heap :=
  ⟨fun _ => rfl, fun _ _ => rfl⟩

/-- A write to the `next` of a node. -/
theorem setNext_eq {heap : Heap} {a : ℕ} {n : LIST} (h : heap a = some n) (next : ℕ) :
    setNext heap a next = some (Function.update heap a (some { n with next := next })) := by
  rw [setNext, h]
  rfl

theorem Rewired.update {l : List ℕ} {heap heap' : Heap} (h : Rewired l heap heap') {a : ℕ}
    (ha : a ∈ l) {n : LIST} (hn : heap' a = some n) (next : ℕ) :
    Rewired l heap (Function.update heap' a (some { n with next := next })) where
  data b := by
    rw [← h.data b]
    by_cases hb : b = a
    · rw [hb, Function.update_self, hn]
      rfl
    · rw [Function.update_of_ne hb]
  elsewhere b hb := by
    rw [← h.elsewhere b hb]
    apply Function.update_of_ne
    rintro rfl
    exact hb ha

/-- A node of the list gets another `next`. -/
theorem Rewired.setNext {l : List ℕ} {heap heap' : Heap} (h : Rewired l heap heap') {a : ℕ}
    (ha : a ∈ l) {n : LIST} (hn : heap' a = some n) (next : ℕ) :
    ∃ heap'', setNext heap' a next = some heap'' ∧
      heap'' = Function.update heap' a (some { n with next := next }) ∧ Rewired l heap heap'' :=
  ⟨_, setNext_eq hn next, rfl, h.update ha hn next⟩

section List

variable {heap : Heap} {head : ℕ} {l : List ℕ} (h : IsList heap head l)
include h

theorem IsList.nodup : l.Nodup := h.links.nodup h.null

theorem IsList.head_eq_zero : head = 0 ↔ l = [] := by
  cases l with
  | nil => exact iff_of_true (links_nil.mp h.links) rfl
  | cons a l =>
    obtain ⟨rfl, -⟩ := links_cons.mp h.links
    refine iff_of_false (fun hzero => h.null ?_) (List.cons_ne_nil _ _)
    rw [hzero]
    exact List.mem_cons_self

/-- At the start of a function. -/
theorem IsList.unlessShort_of_short (hl : l.length ≤ 1) (reverse : ℕ → Option (Heap × ℕ)) :
    unlessShort heap head reverse = some (heap, head) := by
  unfold unlessShort
  by_cases hzero : head = 0
  · rw [if_pos hzero]
  · obtain ⟨a, rfl⟩ : ∃ a, l = [a] := by
      apply List.length_eq_one_iff.mp
      have hne : l ≠ [] := fun hnil => hzero (h.head_eq_zero.mpr hnil)
      have hpos := List.length_pos_iff.mpr hne
      omega
    obtain ⟨rfl, n, hn, hrest⟩ := links_cons.mp h.links
    have hlast : n.next = 0 := links_nil.mp hrest
    rw [if_neg hzero, hn]
    exact if_pos hlast

/-- A short list is its own reverse. -/
theorem IsList.reverses_of_short (hl : l.length ≤ 1)
    (reverse : ℕ → Heap → ℕ → ℕ → Option (Heap × ℕ)) :
    Reverses (fun rounds heap head => unlessShort heap head (reverse rounds heap head))
      heap head l := by
  have hsame : l.reverse = l := by
    match l, hl with
    | [], _ => rfl
    | [a], _ => rfl
  have hlist : IsList heap head l.reverse := by rwa [hsame]
  have hshort (rounds : ℕ) := h.unlessShort_of_short hl (reverse rounds heap head)
  refine ⟨⟨0, _, hshort 0⟩, fun rounds p hp => ?_⟩
  obtain rfl := Option.some.inj ((hshort rounds).symm.trans hp)
  exact ⟨hlist, .refl l heap⟩

end List

/-- A list with two nodes or more. -/
theorem IsList.unlessShort_of_long {heap : Heap} {head a b : ℕ} {l : List ℕ}
    (h : IsList heap head (a :: b :: l)) (reverse : ℕ → Option (Heap × ℕ)) :
    head = a ∧ (∃ n, heap a = some n ∧ n.next = b) ∧ unlessShort heap head reverse = reverse b := by
  obtain ⟨rfl, n, hn, hrest⟩ := links_cons.mp h.links
  obtain ⟨hnext, -⟩ := links_cons.mp hrest
  have hnull := h.null
  rw [List.mem_cons, List.mem_cons, not_or, not_or] at hnull
  refine ⟨rfl, ⟨n, hn, hnext⟩, ?_⟩
  rw [unlessShort, if_neg (Ne.symm hnull.1), hn]
  change (if n.next = 0 then _ else reverse n.next) = _
  rw [hnext, if_neg (Ne.symm hnull.2.1)]

/-- Short lists are returned as they are; for the others it is enough that the loop keeps an
invariant which holds at its start, and is left with the reversed list. -/
theorem IsList.reverses {heap : Heap} {head : ℕ} {l : List ℕ} (h : IsList heap head l) {σ : Type}
    {round : σ → Option (Round σ (Heap × ℕ))} (start : Heap → ℕ → ℕ → σ) (I : ℕ → σ → Prop)
    (hstart : ∀ a b rest n, l = a :: b :: rest → heap a = some n → n.next = b →
      ∃ k, I k (start heap a b))
    (hround : ∀ n s, I n s → (∃ p, round s = some (.left p) ∧ Reversed l heap p.1 p.2) ∨
      ∃ s' k, round s = some (.again s') ∧ k < n ∧ I k s') :
    Reverses (fun rounds heap head => unlessShort heap head fun next =>
      loop round rounds (start heap head next)) heap head l := by
  match l, h, hstart, hround with
  | [], h, _, _ => exact h.reverses_of_short (Nat.zero_le 1) _
  | [a], h, _, _ => exact h.reverses_of_short (Nat.le_refl 1) _
  | a :: b :: rest, h, hstart, hround =>
    obtain ⟨rfl, ⟨n, hn, hnext⟩, -⟩ := h.unlessShort_of_long fun _ => none
    have hlong (reverse : ℕ → Option (Heap × ℕ)) : unlessShort heap head reverse = reverse b :=
      (h.unlessShort_of_long reverse).2.2
    obtain ⟨k, hk⟩ := hstart head b rest n rfl hn hnext
    obtain ⟨p, hloop, hp⟩ := loop_ends hround hk
    refine ⟨⟨k+1, p, (hlong _).trans hloop⟩, fun rounds q hq => ?_⟩
    have hq' : loop round rounds (start heap head b) = some q := (hlong _).symm.trans hq
    rw [loop_unique hq' hloop]
    exact hp

/-! `iteration_reverse`. -/

section Iteration

variable {heap : Heap} {l : List ℕ}

/-- The nodes before `mid` are reversed, from `beg` on; those after it are as they were, from `end`
on, and there are `n` of them. -/
structure IterationInv (heap : Heap) (l : List ℕ) (n : ℕ) (s : Iteration) : Prop where
  lists : ∃ before after, l = before.reverse ++ s.mid :: after ∧ after.length = n ∧
    Links LIST.next s.heap s.beg before 0 ∧ Links LIST.next s.heap s.endNode after 0
  mid : ∃ m, s.heap s.mid = some m
  rewired : Rewired l heap s.heap

/-- A round that is not the last one. -/
theorem iterationRound_again {s : Iteration} {heap₁ : Heap} {e : LIST}
    (hwrite : setNext s.heap s.mid s.beg = some heap₁) (hne : s.endNode ≠ 0)
    (he : heap₁ s.endNode = some e) :
    iterationRound s = some (.again ⟨heap₁, s.mid, s.endNode, e.next⟩) := by
  rw [iterationRound, hwrite]
  change (if s.endNode = 0 then _ else Option.bind _ _) = _
  rw [if_neg hne, he]
  rfl

theorem iterationRound_spec (hnodup : l.Nodup) (hnull : 0 ∉ l) {n : ℕ} {s : Iteration}
    (hs : IterationInv heap l n s) :
    (∃ p, iterationRound s = some (.left p) ∧ Reversed l heap p.1 p.2) ∨
      ∃ s' k, iterationRound s = some (.again s') ∧ k < n ∧ IterationInv heap l k s' := by
  obtain ⟨⟨before, after, hl, hn, hbefore, hafter⟩, ⟨m, hm⟩, hrewired⟩ := hs
  have hmid : s.mid ∈ l := by
    rw [hl]
    exact List.mem_append_right _ List.mem_cons_self
  rw [hl, List.nodup_append, List.nodup_cons] at hnodup
  obtain ⟨-, ⟨hmidafter, -⟩, hdisj⟩ := hnodup
  have hmidbefore : s.mid ∉ before := fun hmem =>
    hdisj s.mid (List.mem_reverse.mpr hmem) s.mid List.mem_cons_self rfl
  obtain ⟨heap₁, hwrite, hheap₁, hrewired'⟩ := hrewired.setNext hmid hm s.beg
  -- `mid` is put before the reversed nodes
  have hfront : Links LIST.next heap₁ s.mid (s.mid :: before) 0 :=
    hheap₁ ▸ hbefore.cons hmidbefore rfl
  cases after with
  | nil =>
    have hend : s.endNode = 0 := links_nil.mp hafter
    refine .inl ⟨(heap₁, s.mid), ?_, ⟨⟨?_, ?_⟩, hrewired'⟩⟩
    · rw [iterationRound, hwrite]
      exact if_pos hend
    · rw [hl, List.reverse_append, List.reverse_reverse]
      exact hfront
    · rwa [List.mem_reverse]
  | cons e after =>
    obtain ⟨rfl, k, hk, hrest⟩ := links_cons.mp hafter
    have hmem : s.endNode ∈ l := by
      rw [hl]
      exact List.mem_append_right _ (List.mem_cons_of_mem _ List.mem_cons_self)
    have hne : s.endNode ≠ 0 := fun hzero => hnull (hzero ▸ hmem)
    have hnem : s.endNode ≠ s.mid := fun heq => hmidafter (heq ▸ List.mem_cons_self)
    have hkeep : heap₁ s.endNode = some k := by
      rw [hheap₁, Function.update_of_ne hnem, hk]
    refine .inr ⟨⟨heap₁, s.mid, s.endNode, k.next⟩, after.length,
      iterationRound_again hwrite hne hkeep, ?_,
      ⟨⟨s.mid :: before, after, ?_, rfl, hfront, ?_⟩, ⟨k, hkeep⟩, hrewired'⟩⟩
    · rw [← hn]
      exact Nat.lt_succ_self _
    · rw [hl, List.reverse_cons, List.append_assoc]
      rfl
    · rw [hheap₁]
      exact hrest.update (fun hmem => hmidafter (List.mem_cons_of_mem _ hmem)) _

theorem iterationReverse_reverses {head : ℕ} (h : IsList heap head l) :
    Reverses iterationReverse heap head l := by
  apply h.reverses (fun heap head next => ⟨heap, 0, head, next⟩) (IterationInv heap l)
  · rintro a b rest n rfl hn rfl
    obtain ⟨-, n', hn', hrest⟩ := links_cons.mp h.links
    obtain rfl := Option.some.inj (hn.symm.trans hn')
    exact ⟨_, ⟨[], n.next :: rest, rfl, rfl, links_nil.mpr rfl, hrest⟩, ⟨n, hn⟩, .refl _ _⟩
  · intro n s hs
    exact iterationRound_spec h.nodup h.null hs

end Iteration

/-! `local_reverse`. -/

section Local

variable {heap : Heap} {l : List ℕ}

/-- The nodes up to `beg`, which is the first of the list it was, are reversed; behind it are the
nodes that are to be put before them, the next of them at `end`. -/
structure LocalInv (heap : Heap) (l : List ℕ) (n : ℕ) (s : Local) : Prop where
  lists : ∃ before after, l = s.beg :: (before ++ after) ∧ after.length = n ∧
    Links LIST.next s.heap s.head (before.reverse ++ s.beg :: after) 0
  beg : ∃ b, s.heap s.beg = some b ∧ b.next = s.endNode
  rewired : Rewired l heap s.heap

/-- A round that is not the last one: `beg->next = end->next; end->next = head;`. -/
theorem localRound_again {s : Local} {heap₁ heap₂ : Heap} {e b : LIST} (hne : s.endNode ≠ 0)
    (he : s.heap s.endNode = some e) (hwrite₁ : setNext s.heap s.beg e.next = some heap₁)
    (hwrite₂ : setNext heap₁ s.endNode s.head = some heap₂) (hb : heap₂ s.beg = some b) :
    localRound s = some (.again ⟨heap₂, s.endNode, s.beg, b.next⟩) := by
  rw [localRound, if_neg hne, he]
  change (setNext s.heap s.beg e.next).bind _ = _
  rw [hwrite₁, Option.bind_some]
  change (setNext heap₁ s.endNode s.head).bind _ = _
  rw [hwrite₂, Option.bind_some, hb]
  rfl

theorem localRound_spec (hnodup : l.Nodup) (hnull : 0 ∉ l) {n : ℕ} {s : Local}
    (hs : LocalInv heap l n s) :
    (∃ p, localRound s = some (.left p) ∧ Reversed l heap p.1 p.2) ∨
      ∃ s' k, localRound s = some (.again s') ∧ k < n ∧ LocalInv heap l k s' := by
  obtain ⟨⟨before, after, hl, hn, hlinks⟩, ⟨b, hb, hend⟩, hrewired⟩ := hs
  have hafter : Links LIST.next s.heap s.endNode after 0 := by
    obtain ⟨r, -, hrest⟩ := links_append.mp hlinks
    obtain ⟨rfl, b', hb', hafter⟩ := links_cons.mp hrest
    obtain rfl := Option.some.inj (hb.symm.trans hb')
    rwa [hend] at hafter
  have hperm : (before.reverse ++ s.beg :: after).Perm l := by
    rw [hl]
    exact List.perm_middle.trans ((before.reverse_perm.append_right after).cons s.beg)
  cases after with
  | nil =>
    have hzero : s.endNode = 0 := links_nil.mp hafter
    refine .inl ⟨(s.heap, s.head), if_pos hzero, ⟨⟨?_, ?_⟩, hrewired⟩⟩
    · rwa [hl, List.append_nil, List.reverse_cons]
    · rwa [List.mem_reverse]
  | cons e after =>
    obtain ⟨rfl, k, hk, -⟩ := links_cons.mp hafter
    have hmem : s.endNode ∈ l :=
      hperm.mem_iff.mp (List.mem_append_right _ (List.mem_cons_of_mem _ List.mem_cons_self))
    have hbeg : s.beg ∈ l := hperm.mem_iff.mp (List.mem_append_right _ List.mem_cons_self)
    have hne : s.endNode ≠ 0 := fun hzero => hnull (hzero ▸ hmem)
    have hnodup' := hperm.nodup_iff.mpr hnodup
    have heb : s.endNode ≠ s.beg := fun heq =>
      (List.nodup_cons.mp (List.nodup_append.mp hnodup').2.1).1 (heq ▸ List.mem_cons_self)
    obtain ⟨heap₁, hwrite₁, hheap₁, hrewired₁⟩ := hrewired.setNext hbeg hb k.next
    have hk₁ : heap₁ s.endNode = some k := by rw [hheap₁, Function.update_of_ne heb, hk]
    obtain ⟨heap₂, hwrite₂, hheap₂, hrewired₂⟩ := hrewired₁.setNext hmem hk₁ s.head
    have hb₂ : heap₂ s.beg = some { b with next := k.next } := by
      rw [hheap₂, Function.update_of_ne heb.symm, hheap₁, Function.update_self]
    have hmoved : Links LIST.next heap₂ s.endNode
        (s.endNode :: (before.reverse ++ s.beg :: after)) 0 := by
      rw [hheap₂, hheap₁]
      exact hlinks.moveToFront hnodup' hk rfl rfl
    have hround := localRound_again hne hk hwrite₁ hwrite₂ hb₂
    refine .inr ⟨⟨heap₂, s.endNode, s.beg, k.next⟩, after.length, hround, ?_,
      ⟨⟨before ++ [s.endNode], after, ?_, rfl, ?_⟩, ⟨_, hb₂, rfl⟩, hrewired₂⟩⟩
    · rw [← hn]
      exact Nat.lt_succ_self _
    · rw [hl, List.append_assoc]
      rfl
    · rw [List.reverse_append]
      exact hmoved

theorem localReverse_reverses {head : ℕ} (h : IsList heap head l) :
    Reverses localReverse heap head l := by
  apply h.reverses (fun heap head next => ⟨heap, head, head, next⟩) (LocalInv heap l)
  · rintro a b rest n rfl hn rfl
    obtain ⟨rfl, -⟩ := links_cons.mp h.links
    exact ⟨_, ⟨[], n.next :: rest, rfl, rfl, h.links⟩, ⟨n, hn, rfl⟩, .refl _ _⟩
  · intro n s hs
    exact localRound_spec h.nodup h.null hs

end Local

/-! `headInsert_reverse`. -/

/-- The first node is returned alone, as soon as there is a second one. -/
theorem headInsertReverse_first {heap : Heap} {head a b : ℕ} {l : List ℕ}
    (h : IsList heap head (a :: b :: l)) :
    (∃ p, headInsertReverse 2 heap head = some p) ∧
      ∀ rounds p, headInsertReverse rounds heap head = some p → IsList p.1 p.2 [a] := by
  obtain ⟨rfl, ⟨n, hn, -⟩, hlong⟩ :=
    h.unlessShort_of_long fun _ => loop headInsertRound 2 ⟨heap, head, 0⟩
  have hne : head ≠ 0 := by
    rintro rfl
    exact h.null List.mem_cons_self
  obtain ⟨heap₁, hwrite, hheap₁, -⟩ :=
    (Rewired.refl (head :: b :: l) heap).setNext List.mem_cons_self hn 0
  have hn₁ : heap₁ head = some { n with next := 0 } := by rw [hheap₁, Function.update_self]
  have hfirst : headInsertRound ⟨heap, head, 0⟩ = some (.again ⟨heap₁, 0, head⟩) := by
    rw [headInsertRound, if_neg hne]
    change (setNext heap head 0).bind _ = _
    rw [hwrite, Option.bind_some]
    change (heap₁ head).bind _ = _
    rw [hn₁]
    rfl
  have hloop : loop headInsertRound 2 ⟨heap, head, 0⟩ = some (heap₁, head) := by
    rw [loop_again hfirst]
    exact loop_left rfl
  refine ⟨⟨_, hlong.trans hloop⟩, fun rounds p hp => ?_⟩
  have hlong' := (h.unlessShort_of_long fun _ =>
    loop headInsertRound rounds ⟨heap, head, 0⟩).2.2
  have hp' : loop headInsertRound rounds ⟨heap, head, 0⟩ = some p := hlong'.symm.trans hp
  rw [loop_unique hp' hloop]
  refine ⟨links_cons.mpr ⟨rfl, _, hn₁, links_nil.mpr rfl⟩, ?_⟩
  rw [List.mem_singleton]
  exact hne.symm

theorem headInsertReverse_reverses_iff {heap : Heap} {head : ℕ} {l : List ℕ}
    (h : IsList heap head l) : Reverses headInsertReverse heap head l ↔ l.length ≤ 1 := by
  constructor
  · rintro ⟨⟨rounds, p, hp⟩, hreversed⟩
    match l, h, hreversed with
    | [], _, _ => exact Nat.zero_le 1
    | [a], _, _ => exact Nat.le_refl 1
    | a :: b :: l, h, hreversed =>
      have hlist := (hreversed rounds p hp).list
      have halone := (headInsertReverse_first h).2 rounds p hp
      have hsame := hlist.links.unique halone.links hlist.null halone.null
      have hlength := congrArg List.length hsame
      rw [List.length_reverse, List.length_cons, List.length_cons, List.length_singleton] at hlength
      omega
  · intro hl
    exact h.reverses_of_short hl _

/-- On every list each of the three functions returns; `iteration_reverse` and `local_reverse`
reverse it, and the head insertion does so exactly when it has at most one node. -/
theorem reversals_agree_iff {heap : Heap} {head : ℕ} {l : List ℕ} (h : IsList heap head l) :
    ((Reverses iterationReverse heap head l ∧ Reverses headInsertReverse heap head l ∧
        Reverses localReverse heap head l) ↔ l.length ≤ 1) ∧
      Reverses iterationReverse heap head l ∧ Reverses localReverse heap head l ∧
      ∃ p, headInsertReverse 2 heap head = some p := by
  have hiteration := iterationReverse_reverses h
  have hlocal := localReverse_reverses h
  refine ⟨?_, hiteration, hlocal, ?_⟩
  · rw [← headInsertReverse_reverses_iff h]
    exact ⟨fun hall => hall.2.1, fun hinsert => ⟨hiteration, hinsert, hlocal⟩⟩
  · match l, h with
    | [], h => exact ⟨_, h.unlessShort_of_short (Nat.zero_le 1) _⟩
    | [a], h => exact ⟨_, h.unlessShort_of_short (Nat.le_refl 1) _⟩
    | a :: b :: l, h => exact (headInsertReverse_first h).1

/-- Three nodes. -/
def threeNodes : Heap := fun a =>
  if a = 1 then some ⟨7, 2⟩ else if a = 2 then some ⟨8, 3⟩ else if a = 3 then some ⟨9, 0⟩ else none

theorem threeNodes_isList : IsList threeNodes 1 [1, 2, 3] where
  links := links_cons.mpr ⟨rfl, _, rfl, links_cons.mpr ⟨rfl, _, rfl,
    links_cons.mpr ⟨rfl, _, rfl, links_nil.mpr rfl⟩⟩⟩
  null := by decide

theorem reversals_agree_three :
    (∃ rounds p, iterationReverse rounds threeNodes 1 = some p ∧ IsList p.1 p.2 [3, 2, 1]) ∧
      ∃ rounds p, localReverse rounds threeNodes 1 = some p ∧ IsList p.1 p.2 [3, 2, 1] := by
  obtain ⟨-, ⟨⟨n, p, hp⟩, hiteration⟩, ⟨⟨m, q, hq⟩, hlocal⟩, -⟩ :=
    reversals_agree_iff threeNodes_isList
  exact ⟨⟨n, p, hp, (hiteration n p hp).list⟩, m, q, hq, (hlocal m q hq).list⟩

/-- The second and the third node are lost. -/
theorem headInsertReverse_loses_nodes :
    ¬ ∀ (heap : Heap) (head : ℕ) (l : List ℕ), IsList heap head l →
      Reverses iterationReverse heap head l ∧ Reverses headInsertReverse heap head l ∧
        Reverses localReverse heap head l := by
  intro hall
  have hreverses := (hall threeNodes 1 [1, 2, 3] threeNodes_isList).2.1
  have hshort := (headInsertReverse_reverses_iff threeNodes_isList).mp hreverses
  exact absurd hshort (by decide)

end LinuxPrograms.SingleListReverse
