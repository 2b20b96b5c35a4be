import LinuxPrograms.LibChain
import LinuxPrograms.LibFifo
import Mathlib.Data.Int.Order.Basic

/-! The linked queue (queueLinkList.c). The heap maps the addresses `malloc` has handed out and
nobody has freed to what is stored there; address 0 is `NULL`. -/
namespace LinuxPrograms.QueueLinkList
open Lib

structure QNode where
  id : ℤ
  next : ℕ
deriving DecidableEq, Repr

structure State where
  heap : ℕ → Option QNode
  head : ℕ
  tail : ℕ

/-- What `malloc` returns: `NULL`, or an address and the bytes there as a node. -/
abbrev Malloc := Option (ℕ × QNode)

/-- The queue afterwards and what the function returns. -/
def initQueue (heap : ℕ → Option QNode) : Malloc → State × Bool
  | none => (⟨heap, 0, 0⟩, false)
  | some (a, block) => (⟨Function.update heap a (some { block with next := 0 }), a, a⟩, true)

def isEmpty (s : State) : Bool := decide (s.tail = s.head)

/-- `none` is an access through a pointer to no node. -/
def enQueue (s : State) (id : ℤ) (m : Malloc) : Option (State × Bool) :=
  match s.heap s.tail with
  | none => none
  | some last =>
    match m with
    | none =>
      some ({ s with heap := Function.update s.heap s.tail (some { last with next := 0 }) }, false)
    | some (a, block) =>
      let heap₁ := Function.update s.heap a (some block)
      let heap₂ := Function.update heap₁ s.tail (some { last with next := a })
      let heap₃ := Function.update heap₂ a (some { block with next := 0, id := id })
      some (⟨heap₃, s.head, a⟩, true)

def deQueue (s : State) : Option (State × Option ℤ) :=
  if isEmpty s then some (s, none)
  else
    match s.heap s.head with
    | none => none
    | some first =>
      match s.heap first.next with
      | none => none
      | some temp =>
        -- the last node is leaving: `tail` goes back to the dummy
        let tail := if s.tail = first.next then s.head else s.tail
        let heap₁ := Function.update s.heap s.head (some { first with next := temp.next })
        some (⟨Function.update heap₁ first.next none, s.head, tail⟩, some temp.id)

inductive Call
  | enQueue (id : ℤ) (m : Malloc)
  | deQueue
deriving DecidableEq, Repr

inductive Result
  | enQueue (ok : Bool)
  | deQueue (id : Option ℤ)
deriving DecidableEq, Repr

def call (s : State) : Call → Option (State × Result)
  | .enQueue id m => (enQueue s id m).map fun r => (r.1, .enQueue r.2)
  | .deQueue => (deQueue s).map fun r => (r.1, .deQueue r.2)

/-- `malloc` fails, or returns memory that is not in use. -/
def MallocOk (s : State) : Call → Prop
  | .enQueue _ (some (a, _)) => a ≠ 0 ∧ s.heap a = none
  | _ => True

/-- A queue without bound, but for the calls in which `malloc` fails. -/
def fifo (xs : List ℤ) : Call → List ℤ × Result
  | .enQueue id m =>
    let r := enqueue m.isSome id xs
    (r.1, .enQueue r.2)
  | .deQueue =>
    let r := dequeue xs
    (r.1, .deQueue r.2)

def idsOf (cells : List (ℕ × QNode)) : List ℤ := cells.map fun c => c.2.id

/-- The cells are a chain of nodes in use from the dummy `head` on, `NULL` ends it, and `tail` is
the last of them; after the dummy they hold `xs`. -/
structure Holds (s : State) (cells : List (ℕ × QNode)) (xs : List ℤ) : Prop where
  chain : Chain QNode.next s.heap s.head cells 0
  nodup : (addresses cells).Nodup
  tail : (addresses cells).getLast? = some s.tail
  ids : (idsOf cells).tail = xs
  null : s.heap 0 = none

theorem initQueue_holds {heap : ℕ → Option QNode} {a : ℕ} (hnull : heap 0 = none) (ha : a ≠ 0)
    (block : QNode) :
    Holds (initQueue heap (some (a, block))).1 [(a, { block with next := 0 })] [] := by
  refine ⟨⟨rfl, Function.update_self _ _ _, rfl⟩, List.nodup_singleton a, rfl, rfl, ?_⟩
  exact (Function.update_of_ne ha.symm _ _).trans hnull

/-- The last cell of the chain. -/
theorem Holds.last {s : State} {cells : List (ℕ × QNode)} {xs : List ℤ} (h : Holds s cells xs) :
    ∃ init last, cells = init ++ [(s.tail, last)] ∧ s.heap s.tail = some last ∧ last.next = 0 := by
  obtain ⟨before, hsplit⟩ := List.getLast?_eq_some_iff.mp h.tail
  obtain ⟨init, rest, hcells, -, hrest⟩ := List.map_eq_append_iff.mp hsplit
  obtain ⟨⟨t, last⟩, rfl, ht⟩ := List.map_eq_singleton_iff.mp hrest
  rw [show t = s.tail from ht] at hcells
  have hchain := h.chain
  rw [hcells, chain_append] at hchain
  obtain ⟨r, -, -, hlast, hnext⟩ := hchain
  exact ⟨init, last, hcells, hlast, hnext⟩

theorem idsOf_append (cells cells' : List (ℕ × QNode)) :
    idsOf (cells ++ cells') = idsOf cells ++ idsOf cells' :=
  List.map_append

theorem idsOf_ne_nil {cells : List (ℕ × QNode)} (h : cells ≠ []) : idsOf cells ≠ [] :=
  fun heq => h (List.map_eq_nil_iff.mp heq)

/-- `EnQueue` when `malloc` fails: the last node's `next` is `NULL` again. -/
theorem Holds.enQueue_failed {s : State} {cells : List (ℕ × QNode)} {xs : List ℤ}
    (h : Holds s cells xs) (id : ℤ) : enQueue s id none = some (s, false) := by
  obtain ⟨init, last, -, hlast, hnext⟩ := h.last
  have hsame : ({ last with next := 0 } : QNode) = last := by rw [← hnext]
  simp only [enQueue, hlast]
  rw [hsame, ← hlast, Function.update_eq_self]

/-- `EnQueue` when `malloc` returns a node: it becomes the last one. -/
theorem Holds.enQueue {s : State} {cells : List (ℕ × QNode)} {xs : List ℤ} (h : Holds s cells xs)
    (id : ℤ) {a : ℕ} (block : QNode) (ha : a ≠ 0) (hfree : s.heap a = none) :
    ∃ s' cells', QueueLinkList.enQueue s id (some (a, block)) = some (s', true) ∧
      Holds s' cells' (xs ++ [id]) := by
  obtain ⟨init, last, hcells, hlast, -⟩ := h.last
  have hta : s.tail ≠ a := by
    intro heq
    rw [heq, hfree] at hlast
    cases hlast
  have htail : (0 : ℕ) ≠ s.tail := by
    intro heq
    rw [← heq, h.null] at hlast
    cases hlast
  -- the new node is written twice, by `malloc` and when it is filled in
  have hheap : Function.update (Function.update (Function.update s.heap a (some block)) s.tail
        (some { last with next := a })) a (some { block with next := 0, id := id }) =
      Function.update (Function.update s.heap s.tail (some { last with next := a })) a
        (some { block with next := 0, id := id }) := by
    rw [Function.update_comm hta.symm, Function.update_idem]
  have hnext : QNode.next { last with next := a } = a := rfl
  have hend : QNode.next { block with next := 0, id := id } = 0 := rfl
  obtain ⟨hchain, hnodup⟩ := (hcells ▸ h.chain).push (hcells ▸ h.nodup) hfree hnext hend
  refine ⟨⟨Function.update (Function.update s.heap s.tail (some { last with next := a })) a
      (some { block with next := 0, id := id }), s.head, a⟩,
    init ++ [(s.tail, { last with next := a })] ++ [(a, { block with next := 0, id := id })], ?_,
    hchain, hnodup, ?_, ?_, ?_⟩
  · simp only [QueueLinkList.enQueue, hlast, hheap]
  · rw [addresses_append]
    exact List.getLast?_concat
  · -- the ids of the cells up to the old last one are as they were
    have hids : idsOf (init ++ [(s.tail, { last with next := a })]) = idsOf cells := by
      rw [hcells, idsOf_append, idsOf_append]
      rfl
    have hne : idsOf cells ≠ [] := idsOf_ne_nil (by rw [hcells]; simp)
    rw [idsOf_append, hids, List.tail_append_of_ne_nil hne, h.ids]
    rfl
  · dsimp only
    rw [Function.update_of_ne ha.symm, Function.update_of_ne htail, h.null]

/-- The dummy, and the nodes after it. -/
theorem Holds.first {s : State} {cells : List (ℕ × QNode)} {xs : List ℤ} (h : Holds s cells xs) :
    ∃ first rest, cells = (s.head, first) :: rest ∧ s.heap s.head = some first ∧
      idsOf rest = xs := by
  cases cells with
  | nil => cases h.tail
  | cons c rest =>
    obtain ⟨p, first⟩ := c
    obtain ⟨hp, hfirst, -⟩ := h.chain
    obtain rfl : s.head = p := hp
    exact ⟨first, rest, rfl, hfirst, h.ids⟩

/-- `tail` is not the first address of a chain of distinct addresses with a second one. -/
theorem getLast?_ne_first {p a t : ℕ} {l : List ℕ} (hnodup : (p :: a :: l).Nodup)
    (h : (p :: a :: l).getLast? = some t) : t ≠ p := by
  rw [List.getLast?_cons_cons] at h
  rintro rfl
  exact (List.nodup_cons.mp hnodup).1 (List.mem_of_getLast? h)

theorem Holds.isEmpty_iff {s : State} {cells : List (ℕ × QNode)} {xs : List ℤ}
    (h : Holds s cells xs) : isEmpty s = true ↔ xs = [] := by
  obtain ⟨first, rest, rfl, -, rfl⟩ := h.first
  have htail := h.tail
  rw [isEmpty, decide_eq_true_iff]
  cases rest with
  | nil =>
    refine iff_of_true ?_ rfl
    exact (Option.some.inj htail).symm
  | cons c rest => exact iff_of_false (getLast?_ne_first h.nodup htail) (List.cons_ne_nil _ _)

/-- `DeQueue` takes the node after the dummy out of the chain and frees it. -/
theorem Holds.deQueue {s : State} {cells : List (ℕ × QNode)} {x : ℤ} {xs : List ℤ}
    (h : Holds s cells (x :: xs)) :
    ∃ s' cells', QueueLinkList.deQueue s = some (s', some x) ∧ Holds s' cells' xs := by
  have hempty : ¬ isEmpty s = true := fun he => List.cons_ne_nil _ _ (h.isEmpty_iff.mp he)
  obtain ⟨first, rest, rfl, hfirst, hids⟩ := h.first
  obtain ⟨⟨a, temp⟩, rest, rfl, rfl, hxs⟩ := List.map_eq_cons_iff.mp hids
  obtain ⟨-, -, ha, htemp, -⟩ := h.chain
  have hhead : (0 : ℕ) ≠ s.head := by
    intro heq
    rw [← heq, h.null] at hfirst
    cases hfirst
  obtain ⟨hchain, hnodup⟩ :=
    h.chain.pop h.nodup (show QNode.next { first with next := temp.next } = temp.next from rfl)
  refine ⟨⟨Function.update (Function.update s.heap s.head
      (some { first with next := temp.next })) a none, s.head,
        if s.tail = a then s.head else s.tail⟩,
    (s.head, { first with next := temp.next }) :: rest, ?_, hchain, hnodup, ?_, hxs, ?_⟩
  · rw [show a = first.next from ha.symm] at htemp ⊢
    simp only [QueueLinkList.deQueue, if_neg hempty, hfirst, htemp]
  · have htail := h.tail
    cases rest with
    -- the node taken out was the last one: `tail` goes back to the dummy
    | nil =>
      have hlast : a = s.tail := Option.some.inj htail
      rw [if_pos hlast.symm]
      rfl
    | cons c rest =>
      have htail' : (a :: c.1 :: addresses rest).getLast? = some s.tail := by
        rw [← htail]
        exact (List.getLast?_cons_cons ..).symm
      rw [if_neg (getLast?_ne_first (List.nodup_cons.mp h.nodup).2 htail'), ← htail']
      exact (List.getLast?_cons_cons ..).trans (List.getLast?_cons_cons ..).symm
  · dsimp only
    by_cases hnull : a = 0
    · rw [hnull, Function.update_self]
    · rw [Function.update_of_ne (Ne.symm hnull), Function.update_of_ne hhead, h.null]

/-- The linked queue answers as a FIFO queue, whatever `malloc` returns. -/
theorem call_simulates :
    Simulates call fifo MallocOk (fun s xs => ∃ cells, Holds s cells xs) := by
  rintro s xs c ⟨cells, h⟩ hmalloc
  cases c with
  | enQueue id m =>
    cases m with
    | none =>
      refine ⟨s, ?_, cells, h⟩
      rw [call, h.enQueue_failed id]
      rfl
    | some block =>
      obtain ⟨a, block⟩ := block
      obtain ⟨s', cells', hcall, hholds⟩ := h.enQueue id block hmalloc.1 hmalloc.2
      refine ⟨s', ?_, cells', hholds⟩
      rw [call, hcall]
      rfl
  | deQueue =>
    cases xs with
    | nil =>
      refine ⟨s, ?_, cells, h⟩
      rw [call, deQueue, if_pos (h.isEmpty_iff.mpr rfl)]
      rfl
    | cons x xs =>
      obtain ⟨s', cells', hcall, hholds⟩ := h.deQueue
      refine ⟨s', ?_, cells', hholds⟩
      rw [call, hcall]
      rfl

/-- For every sequence of calls and whatever `malloc` does in them, the linked queue answers as a
FIFO queue, its nodes are in use and chained from the dummy to `tail`, and an `EnQueue` that fails
next leaves everything as it is. -/
theorem linked_queue_is_fifo (heap : ℕ → Option QNode) (hnull : heap 0 = none) (a : ℕ)
    (block : QNode) (ha : a ≠ 0) (calls : List Call)
    (hcalls : LegalCalls MallocOk call (initQueue heap (some (a, block))).1 calls) :
    ∃ s cells, answers call (initQueue heap (some (a, block))).1 calls =
        some (s, (specAnswers fifo [] calls).2) ∧
      Holds s cells (specAnswers fifo [] calls).1 ∧
      ∀ id, enQueue s id none = some (s, false) := by
  obtain ⟨s, hanswers, cells, hholds⟩ :=
    call_simulates.answers ⟨_, initQueue_holds hnull ha block⟩ hcalls
  exact ⟨s, cells, hanswers, hholds, hholds.enQueue_failed⟩

/-- The only node is taken out, its address handed out again, and then `malloc` fails. -/
def recycledCalls : List Call :=
  [.enQueue 7 (some (2, ⟨0, 9⟩)), .deQueue, .enQueue 8 (some (2, ⟨7, 0⟩)), .enQueue 9 none,
    .deQueue]

theorem linked_queue_is_fifo_recycled :
    ∃ s, answers call (initQueue (fun _ => none) (some (1, ⟨0, 0⟩))).1 recycledCalls =
      some (s, [.enQueue true, .deQueue (some 7), .enQueue true, .enQueue false,
        .deQueue (some 8)]) := by
  obtain ⟨s, cells, hanswers, -⟩ := linked_queue_is_fifo (fun _ => none) rfl 1 ⟨0, 0⟩ (by decide)
    recycledCalls ⟨⟨by decide, rfl⟩, trivial, ⟨by decide, rfl⟩, trivial, trivial, trivial⟩
  exact ⟨s, hanswers⟩

end LinuxPrograms.QueueLinkList
