import LinuxPrograms.LibFifo
import Mathlib.Data.Int.Order.Basic

/-! The array queue (queueArray.c). One place of the array stays free, so that a full queue and an
empty one differ in their indexes. -/
namespace LinuxPrograms.QueueArray
open Lib

structure QItem where
  id : ℤ
deriving DecidableEq, Repr

structure Queue where
  head : ℤ
  tail : ℤ
  item : List QItem  -- the block `malloc` returned
  QLen : ℤ
deriving DecidableEq, Repr

/-- `QLen` is set before, and `malloc` returns the block `item`, whatever it holds. -/
def initQueue (QLen : ℤ) (item : List QItem) : Queue := ⟨0, 0, item, QLen⟩

def queueEmpty (Q : Queue) : Bool := decide (Q.head = Q.tail)

/-- `%` of C truncates. -/
def queueFull (Q : Queue) : Bool := decide ((Q.tail+1).tmod Q.QLen = Q.head)

/-- `Q->item[index]`; `none` is an index outside the block. -/
def Queue.get (Q : Queue) (index : ℤ) : Option QItem :=
  if 0 ≤ index then Q.item[index.toNat]? else none

/-- `Q->item[index].id = id` -/
def Queue.set (Q : Queue) (index : ℤ) (id : ℤ) : Option Queue :=
  match Q.get index with
  | some it => some { Q with item := Q.item.set index.toNat { it with id := id } }
  | none => none

/-- The queue afterwards and what the function returns. -/
def enQueue (Q : Queue) (Item : QItem) : Option (Queue × Bool) :=
  if queueFull Q then some (Q, false)
  else (Q.set Q.tail Item.id).map fun Q' => ({ Q' with tail := (Q.tail+1).tmod Q.QLen }, true)

/-- The item delivered is `none` where the function returns false. -/
def deQueue (Q : Queue) : Option (Queue × Option QItem) :=
  if queueEmpty Q then some (Q, none)
  else (Q.get Q.head).map fun it => ({ Q with head := (Q.head+1).tmod Q.QLen }, some ⟨it.id⟩)

inductive Call
  | enQueue (Item : QItem)
  | deQueue
deriving DecidableEq, Repr

inductive Result
  | enQueue (ok : Bool)
  | deQueue (Item : Option QItem)
deriving DecidableEq, Repr

/-- The call returned false. -/
def Result.Failed (r : Result) : Prop := r = .enQueue false ∨ r = .deQueue none

def call (Q : Queue) : Call → Option (Queue × Result)
  | .enQueue Item => (enQueue Q Item).map fun r => (r.1, .enQueue r.2)
  | .deQueue => (deQueue Q).map fun r => (r.1, .deQueue r.2)

/-- A queue that holds at most `capacity` items. -/
def boundedFifo (capacity : ℕ) (xs : List QItem) : Call → List QItem × Result
  | .enQueue Item =>
    let r := enqueue (decide (xs.length < capacity)) Item xs
    (r.1, .enQueue r.2)
  | .deQueue =>
    let r := dequeue xs
    (r.1, .deQueue r.2)

/-- The items stand between `head` and `tail`, in order. -/
structure Holds (Q : Queue) (xs : List QItem) : Prop where
  head_nonneg : 0 ≤ Q.head
  tail : Q.tail = ((Q.head.toNat+xs.length)%Q.QLen.toNat : ℕ)
  items : Segment Q.item Q.QLen.toNat Q.head.toNat xs

theorem Holds.head_lt {Q : Queue} {xs : List QItem} (h : Holds Q xs) : Q.head < Q.QLen := by
  have hstart := h.items.start
  have hnonneg := h.head_nonneg
  omega

theorem Holds.tail_range {Q : Queue} {xs : List QItem} (h : Holds Q xs) :
    0 ≤ Q.tail ∧ Q.tail < Q.QLen := by
  have hpos : 0 < Q.QLen.toNat := Nat.lt_of_le_of_lt (Nat.zero_le _) h.items.start
  have hlt := Nat.mod_lt (Q.head.toNat+xs.length) hpos
  rw [h.tail]
  omega

theorem natCast_succ_tmod {i : ℤ} {n : ℕ} (q : ℤ) (hi : i = n) (hq : 0 ≤ q) :
    (i+1).tmod q = ((n+1)%q.toNat : ℕ) := by
  have hcast : (i+1).tmod q = Int.tmod ((n+1 : ℕ) : ℤ) ((q.toNat : ℕ) : ℤ) := by
    rw [Int.toNat_of_nonneg hq, hi, Int.natCast_succ]
  rw [hcast, ← Int.ofNat_tmod]

theorem Holds.queueEmpty_iff {Q : Queue} {xs : List QItem} (h : Holds Q xs) :
    queueEmpty Q = true ↔ xs = [] := by
  have hmod := add_mod_eq_start_iff h.items.start h.items.room
  have hnonneg := h.head_nonneg
  rw [queueEmpty, decide_eq_true_iff, h.tail, ← List.length_eq_zero_iff, ← hmod]
  omega

theorem Holds.queueFull_iff {Q : Queue} {xs : List QItem} (h : Holds Q xs) :
    queueFull Q = true ↔ ¬ xs.length < (Q.QLen-1).toNat := by
  have hmod := succ_add_mod_eq_start_iff h.items.start h.items.room
  have hnonneg := h.head_nonneg
  have hroom := h.items.room
  rw [queueFull, decide_eq_true_iff, natCast_succ_tmod Q.QLen h.tail (by omega)]
  omega

theorem Holds.tail_toNat {Q : Queue} {xs : List QItem} (h : Holds Q xs) :
    Q.tail.toNat = (Q.head.toNat+xs.length)%Q.QLen.toNat := by
  rw [h.tail, Int.toNat_natCast]

/-- The place after the last item is in the block. -/
theorem Holds.set_tail {Q : Queue} {xs : List QItem} (h : Holds Q xs) (Item : QItem) :
    Q.set Q.tail Item.id =
      some { Q with item := Q.item.set ((Q.head.toNat+xs.length)%Q.QLen.toNat) Item } := by
  have hrange := h.tail_range
  have hlt : Q.tail.toNat < Q.item.length := by
    rw [h.items.block]
    omega
  rw [← h.tail_toNat, Queue.set, Queue.get, if_pos hrange.1, List.getElem?_eq_getElem hlt]

/-- `EnQueue` appends where there is room, and else it changes nothing. -/
theorem Holds.enQueue {Q : Queue} {xs : List QItem} (h : Holds Q xs) (Item : QItem) :
    ∃ Q', QueueArray.enQueue Q Item =
        some (Q', (enqueue (decide (xs.length < (Q.QLen-1).toNat)) Item xs).2) ∧
      Holds Q' (enqueue (decide (xs.length < (Q.QLen-1).toNat)) Item xs).1 ∧
      Q'.QLen = Q.QLen := by
  by_cases hroom : xs.length < (Q.QLen-1).toNat
  · have hfull : ¬ queueFull Q = true := fun hfull => h.queueFull_iff.mp hfull hroom
    have hlen := h.head_lt
    have hnonneg := h.head_nonneg
    refine ⟨{ Q with
        item := Q.item.set ((Q.head.toNat+xs.length)%Q.QLen.toNat) Item
        tail := (Q.tail+1).tmod Q.QLen }, ?_, ?_, rfl⟩
    · rw [QueueArray.enQueue, if_neg hfull, h.set_tail, decide_eq_true hroom]
      rfl
    · rw [decide_eq_true hroom]
      refine ⟨hnonneg, ?_, h.items.push (by omega) Item⟩
      dsimp only
      rw [natCast_succ_tmod Q.QLen h.tail (by omega), add_mod_succ, enqueue, if_pos rfl,
        List.length_append, List.length_singleton]
  -- no room: the first test fails
  · have hfull := h.queueFull_iff.mpr hroom
    refine ⟨Q, ?_, ?_, rfl⟩
    · rw [QueueArray.enQueue, if_pos hfull, decide_eq_false hroom]
      rfl
    · rwa [decide_eq_false hroom]

/-- `DeQueue` takes the oldest item, if there is one. -/
theorem Holds.deQueue {Q : Queue} {xs : List QItem} (h : Holds Q xs) :
    ∃ Q', QueueArray.deQueue Q = some (Q', (dequeue xs).2) ∧ Holds Q' (dequeue xs).1 ∧
      Q'.QLen = Q.QLen := by
  cases xs with
  | nil =>
    have hempty := h.queueEmpty_iff.mpr rfl
    exact ⟨Q, by rw [QueueArray.deQueue, if_pos hempty]; rfl, h, rfl⟩
  | cons x xs =>
    have hempty : ¬ queueEmpty Q = true := fun he => List.cons_ne_nil _ _ (h.queueEmpty_iff.mp he)
    obtain ⟨hfirst, hrest⟩ := h.items.pop
    have hlen := h.head_lt
    have hnonneg := h.head_nonneg
    have hhead : (Q.head+1).tmod Q.QLen = ((Q.head.toNat+1)%Q.QLen.toNat : ℕ) :=
      natCast_succ_tmod Q.QLen (by omega) (by omega)
    refine ⟨{ Q with head := (Q.head+1).tmod Q.QLen }, ?_, ⟨?_, ?_, ?_⟩, rfl⟩
    · rw [QueueArray.deQueue, if_neg hempty, Queue.get, if_pos hnonneg, hfirst]
      rfl
    · dsimp only
      rw [hhead]
      exact Int.natCast_nonneg _
    · dsimp only
      rw [hhead, Int.toNat_natCast, h.tail, Nat.mod_add_mod, List.length_cons, Nat.add_assoc,
        Nat.add_comm 1]
      rfl
    · dsimp only
      rwa [hhead, Int.toNat_natCast]

/-- A call that returns false leaves the queue as it was. -/
theorem call_failed {Q Q' : Queue} {c : Call} {r : Result} (h : call Q c = some (Q', r))
    (hr : r.Failed) : Q' = Q := by
  cases c with
  | enQueue Item =>
    obtain ⟨⟨Q₁, ok⟩, hcall, heq⟩ := Option.map_eq_some_iff.mp h
    cases heq
    unfold enQueue at hcall
    split at hcall
    · cases hcall
      rfl
    · obtain ⟨Q₂, -, heq⟩ := Option.map_eq_some_iff.mp hcall
      cases heq
      rcases hr with hr | hr <;> cases hr
  | deQueue =>
    obtain ⟨⟨Q₁, Item⟩, hcall, heq⟩ := Option.map_eq_some_iff.mp h
    cases heq
    unfold deQueue at hcall
    split at hcall
    · cases hcall
      rfl
    · obtain ⟨it, -, heq⟩ := Option.map_eq_some_iff.mp hcall
      cases heq
      rcases hr with hr | hr <;> cases hr

theorem initQueue_holds {QLen : ℤ} (hQ : 1 ≤ QLen) {item : List QItem}
    (hitem : item.length = QLen.toNat) : Holds (initQueue QLen item) [] := by
  have hpos : (0 : ℤ).toNat < QLen.toNat := by omega
  refine ⟨Int.le_refl 0, ?_, Segment.nil hitem hpos⟩
  rw [List.length_nil, Nat.add_zero, initQueue, Int.toNat_zero, Nat.zero_mod]
  rfl

/-- A queue of `QLen` places answers as a queue of capacity `QLen-1`. -/
theorem call_simulates (QLen : ℤ) :
    Simulates call (boundedFifo (QLen-1).toNat) (fun _ _ => True)
      (fun Q xs => Holds Q xs ∧ Q.QLen = QLen) := by
  rintro Q xs c ⟨h, rfl⟩ -
  cases c with
  | enQueue Item =>
    obtain ⟨Q', hcall, hholds, hlen⟩ := h.enQueue Item
    exact ⟨Q', by rw [call, hcall]; rfl, hholds, hlen⟩
  | deQueue =>
    obtain ⟨Q', hcall, hholds, hlen⟩ := h.deQueue
    exact ⟨Q', by rw [call, hcall]; rfl, hholds, hlen⟩

/-- For every sequence of calls, the array queue answers as a FIFO queue of capacity `QLen-1` and
holds its items; the indexes stay in the array, and a call that fails next changes nothing. -/
theorem array_queue_is_bounded_fifo (QLen : ℤ) (hQ : 1 ≤ QLen) (item : List QItem)
    (hitem : item.length = QLen.toNat) (calls : List Call) :
    ∃ Q, answers call (initQueue QLen item) calls =
        some (Q, (specAnswers (boundedFifo (QLen-1).toNat) [] calls).2) ∧
      Holds Q (specAnswers (boundedFifo (QLen-1).toNat) [] calls).1 ∧
      (0 ≤ Q.head ∧ Q.head < QLen) ∧ (0 ≤ Q.tail ∧ Q.tail < QLen) ∧
      ∀ c Q' r, call Q c = some (Q', r) → r.Failed → Q' = Q := by
  obtain ⟨Q, hanswers, hholds, hlen⟩ := (call_simulates QLen).answers
    ⟨initQueue_holds hQ hitem, rfl⟩ (legalCalls_of_forall (fun _ _ => trivial) _ calls)
  refine ⟨Q, hanswers, hholds, ⟨hholds.head_nonneg, ?_⟩, ?_, fun c Q' r => call_failed⟩
  · rw [← hlen]
    exact hholds.head_lt
  · rw [← hlen]
    exact hholds.tail_range

/-- The queue of the test program. -/
theorem array_queue_is_bounded_fifo_five :
    ∃ Q, answers call (initQueue 5 (List.replicate 5 ⟨0⟩))
        [.enQueue ⟨0⟩, .enQueue ⟨1⟩, .enQueue ⟨2⟩, .enQueue ⟨3⟩, .enQueue ⟨4⟩, .deQueue] =
      some (Q, [.enQueue true, .enQueue true, .enQueue true, .enQueue true, .enQueue false,
        .deQueue (some ⟨0⟩)]) := by
  obtain ⟨Q, hanswers, -⟩ := array_queue_is_bounded_fifo 5 (by decide) (List.replicate 5 ⟨0⟩)
    (by decide) [.enQueue ⟨0⟩, .enQueue ⟨1⟩, .enQueue ⟨2⟩, .enQueue ⟨3⟩, .enQueue ⟨4⟩, .deQueue]
  exact ⟨Q, hanswers⟩

end LinuxPrograms.QueueArray
