import Mathlib.Data.List.Basic
import Mathlib.Data.Nat.ModEq
import Mathlib.Tactic.Common
import Mathlib.Tactic.Ring

/-! Streams of fixed-size records: the complete records of a byte sequence, the bytes left over,
and how both behave when the sequence arrives in pieces. 32-bit integers in either byte order
are the record format, a block of memory is written by `copyTo`, a string ends with its first zero
byte, and a line with its newline. -/
namespace LinuxPrograms.Lib

variable {α β : Type*}

/-- The complete `k`-element records of `l`, in order. -/
def records (k : ℕ) (l : List α) : List (List α) :=
  (List.range (l.length / k)).map (fun i => (l.drop (k*i)).take k)

/-- What follows the complete records. -/
def leftover (k : ℕ) (l : List α) : List α := l.drop (k*(l.length / k))

theorem leftover_length (k : ℕ) (l : List α) : (leftover k l).length = l.length % k := by
  rw [leftover, List.length_drop]
  have h := Nat.div_add_mod l.length k
  omega

theorem records_of_lt {k : ℕ} {l : List α} (h : l.length < k) : records k l = [] := by
  simp [records, Nat.div_eq_of_lt h]

theorem leftover_of_lt {k : ℕ} {l : List α} (h : l.length < k) : leftover k l = l := by
  simp [leftover, Nat.div_eq_of_lt h]

/-- A list is cut at the first occurrence of `a` in one way only. -/
theorem append_cons_unique {a : α} {l l' m m' : List α} (hl : a ∉ l) (hl' : a ∉ l')
    (h : l ++ a :: m = l' ++ a :: m') : l = l' ∧ m = m' := by
  rcases List.append_eq_append_iff.mp h with ⟨k, rfl, hk⟩ | ⟨k, rfl, hk⟩
  · cases k with
    | nil => exact ⟨(List.append_nil l).symm, (List.cons.inj hk).2⟩
    | cons b k =>
      rw [(List.cons.inj hk).1] at hl'
      exact absurd (List.mem_append_right l List.mem_cons_self) hl'
  · cases k with
    | nil => exact ⟨List.append_nil l', (List.cons.inj hk).2.symm⟩
    | cons b k =>
      rw [(List.cons.inj hk).1] at hl
      exact absurd (List.mem_append_right l' List.mem_cons_self) hl

section Blocks

variable {k : ℕ} {l : List α}

theorem div_eq_succ (hk : 0 < k) (h : k ≤ l.length) :
    l.length / k = (l.drop k).length / k + 1 := by
  rw [List.length_drop]
  exact Nat.div_eq_sub_div hk h

theorem records_of_le (hk : 0 < k) (h : k ≤ l.length) :
    records k l = l.take k :: records k (l.drop k) := by
  unfold records
  rw [div_eq_succ hk h, List.range_succ_eq_map, List.map_cons, List.map_map]
  refine congrArg₂ _ (by simp) (List.map_congr_left fun i _ => ?_)
  simp only [Function.comp_apply, Nat.succ_eq_add_one, List.drop_drop]
  rw [Nat.mul_add, Nat.mul_one, Nat.add_comm]

theorem leftover_of_le (hk : 0 < k) (h : k ≤ l.length) :
    leftover k l = leftover k (l.drop k) := by
  unfold leftover
  rw [div_eq_succ hk h, List.drop_drop, Nat.mul_add, Nat.mul_one, Nat.add_comm]

/-- Induction on the records of a list: less than one record, or one record and a tail. -/
theorem record_induction {P : List α → Prop} (hk : 0 < k) (short : ∀ l, l.length < k → P l)
    (block : ∀ l, k ≤ l.length → P (l.drop k) → P l) : ∀ l, P l := by
  intro l
  induction h : l.length using Nat.strong_induction_on generalizing l with
  | _ n ih =>
    by_cases hl : l.length < k
    · exact short l hl
    · have hle : k ≤ l.length := not_lt.mp hl
      refine block l hle (ih (l.length-k) (by omega) _ ?_)
      rw [List.length_drop]

theorem length_of_mem_records {r : List α} (hr : r ∈ records k l) : r.length = k := by
  obtain ⟨i, hi, rfl⟩ := List.mem_map.mp hr
  have hlt : i+1 ≤ l.length / k := List.mem_range.mp hi
  have hle : k*(i+1) ≤ l.length := (Nat.mul_le_mul_left k hlt).trans (Nat.mul_div_le _ _)
  rw [List.length_take, List.length_drop]
  rw [Nat.mul_add] at hle
  omega

theorem records_flatten_append_leftover (hk : 0 < k) (l : List α) :
    (records k l).flatten ++ leftover k l = l := by
  induction l using record_induction hk with
  | short l h => rw [records_of_lt h, leftover_of_lt h, List.flatten_nil, List.nil_append]
  | block l h ih =>
    rw [records_of_le hk h, leftover_of_le hk h, List.flatten_cons, List.append_assoc, ih,
      List.take_append_drop]

theorem take_drop_append (b : List α) (h : k ≤ l.length) :
    (l ++ b).take k = l.take k ∧ (l ++ b).drop k = l.drop k ++ b :=
  ⟨List.take_append_of_le_length h, List.drop_append_of_le_length h⟩

/-- The records of a sequence that arrives in two pieces: the leftover of the first piece is
completed by the second. -/
theorem records_append (hk : 0 < k) (a b : List α) :
    records k (a ++ b) = records k a ++ records k (leftover k a ++ b) := by
  induction a using record_induction hk with
  | short a h => rw [records_of_lt h, leftover_of_lt h, List.nil_append]
  | block a h ih =>
    obtain ⟨ht, hd⟩ := take_drop_append b h
    have hab : k ≤ (a ++ b).length := by rw [List.length_append]; omega
    rw [records_of_le hk hab, records_of_le hk h, leftover_of_le hk h, ht, hd, ih,
      List.cons_append]

/-- What is left over when the second piece follows what the first has left. -/
theorem leftover_append (hk : 0 < k) (a b : List α) :
    leftover k (a ++ b) = leftover k (leftover k a ++ b) := by
  induction a using record_induction hk with
  | short a h => rw [leftover_of_lt h]
  | block a h ih =>
    obtain ⟨_, hd⟩ := take_drop_append b h
    have hab : k ≤ (a ++ b).length := by rw [List.length_append]; omega
    rw [leftover_of_le hk hab, leftover_of_le hk h, hd, ih]

/-- Encoded records are read back, whatever follows them. -/
theorem records_flatMap_append (f : β → List α) (hf : ∀ x, (f x).length = k) (hk : 0 < k)
    (xs : List β) (l : List α) : records k (xs.flatMap f ++ l) = xs.map f ++ records k l := by
  induction xs with
  | nil => rfl
  | cons x xs ih =>
    have hlen : k ≤ ((x :: xs).flatMap f ++ l).length := by
      rw [List.flatMap_cons, List.append_assoc, List.length_append, hf x]
      omega
    rw [records_of_le hk hlen, List.flatMap_cons, List.append_assoc, ← hf x, List.take_left,
      List.drop_left, hf x, ih, List.map_cons, List.cons_append]

theorem flatMap_length (f : β → List α) (hf : ∀ x, (f x).length = k) (xs : List β) :
    (xs.flatMap f).length = k*xs.length := by
  induction xs with
  | nil => rfl
  | cons x xs ih =>
    rw [List.flatMap_cons, List.length_append, hf x, ih, List.length_cons]
    ring

/-- What is left of an encoding after `n` elements: the rest of the record that `n` lies in, and the
records after it. -/
theorem drop_flatMap (f : β → List α) (hf : ∀ x, (f x).length = k) (hk : 0 < k) {xs : List β}
    {n : ℕ} {x : β} (hx : xs[n / k]? = some x) :
    (xs.flatMap f).drop n = (f x).drop (n % k) ++ (xs.drop (n / k+1)).flatMap f := by
  induction xs generalizing n with
  | nil => cases hx
  | cons y ys ih =>
    by_cases hn : n < k
    · rw [Nat.div_eq_of_lt hn, List.getElem?_cons_zero] at hx
      obtain rfl := Option.some.inj hx
      rw [Nat.div_eq_of_lt hn, Nat.mod_eq_of_lt hn, List.flatMap_cons,
        List.drop_append_of_le_length (by rw [hf]; omega)]
      rfl
    · obtain ⟨m, rfl⟩ := Nat.exists_eq_add_of_le (not_lt.mp hn)
      rw [Nat.add_div_left m hk, List.getElem?_cons_succ] at hx
      rw [Nat.add_div_left m hk, Nat.add_mod_left, List.flatMap_cons, ← hf y,
        List.drop_length_add_append, hf y, ih hx]
      rfl

/-- The whole records of a prefix of an encoding are the encodings of the first elements. -/
theorem records_take_flatMap (f : β → List α) (hf : ∀ x, (f x).length = k) (hk : 0 < k)
    (xs : List β) (n : ℕ) :
    records k ((xs.flatMap f).take n) = (xs.take (((xs.flatMap f).take n).length / k)).map f := by
  induction xs generalizing n with
  | nil => simp [records]
  | cons x xs ih =>
    by_cases hn : n < k
    · have hlt : (((x :: xs).flatMap f).take n).length < k := by
        rw [List.length_take]
        omega
      rw [records_of_lt hlt, Nat.div_eq_of_lt hlt]
      rfl
    · obtain ⟨m, rfl⟩ := Nat.exists_eq_add_of_le (not_lt.mp hn)
      have htake : ((x :: xs).flatMap f).take (k+m) = f x ++ (xs.flatMap f).take m := by
        rw [List.flatMap_cons, ← hf x, List.take_length_add_append]
      have hle : k ≤ (f x ++ (xs.flatMap f).take m).length := by
        rw [List.length_append, hf x]
        omega
      rw [htake, records_of_le hk hle, div_eq_succ hk hle]
      have hd : (f x ++ (xs.flatMap f).take m).drop k = (xs.flatMap f).take m := by
        rw [← hf x, List.drop_left]
      have ht : (f x ++ (xs.flatMap f).take m).take k = f x := by rw [← hf x, List.take_left]
      rw [hd, ht, ih m, List.take_succ_cons, List.map_cons]

end Blocks

/-! Little-endian 32-bit integers. -/

def leBytes (n : ℕ) : List UInt8 :=
  [UInt8.ofNat n, UInt8.ofNat (n / 2^8), UInt8.ofNat (n / 2^16), UInt8.ofNat (n / 2^24)]

def leNat (l : List UInt8) : ℕ := l.foldr (fun b n => b.toNat + 2^8*n) 0

theorem leBytes_length (n : ℕ) : (leBytes n).length = 4 := rfl

theorem leNat_leBytes (n : ℕ) (h : n < 2^32) : leNat (leBytes n) = n := by
  simp only [leNat, leBytes, List.foldr_cons, List.foldr_nil, UInt8.toNat_ofNat']
  omega

/-- The integers completely present in a byte sequence. -/
def decodeInts (l : List UInt8) : List ℕ := (records 4 l).map leNat

def encodeInts (xs : List ℕ) : List UInt8 := xs.flatMap leBytes

theorem encodeInts_length (xs : List ℕ) : (encodeInts xs).length = 4*xs.length :=
  flatMap_length leBytes leBytes_length xs

theorem encodeInts_append (xs ys : List ℕ) :
    encodeInts (xs ++ ys) = encodeInts xs ++ encodeInts ys :=
  List.flatMap_append

theorem decodeInts_append (a b : List UInt8) :
    decodeInts (a ++ b) = decodeInts a ++ decodeInts (leftover 4 a ++ b) := by
  rw [decodeInts, records_append (by decide), List.map_append]
  rfl

theorem decodeInts_length (l : List UInt8) : (decodeInts l).length = l.length / 4 := by
  simp [decodeInts, records]

theorem decodeInts_of_lt {l : List UInt8} (h : l.length < 4) : decodeInts l = [] := by
  rw [decodeInts, records_of_lt h, List.map_nil]

theorem decodeInts_cons (b₀ b₁ b₂ b₃ : UInt8) (l : List UInt8) :
    decodeInts (b₀ :: b₁ :: b₂ :: b₃ :: l) = leNat [b₀, b₁, b₂, b₃] :: decodeInts l := by
  rw [decodeInts, records_of_le (by decide) (by simp only [List.length_cons]; omega)]
  rfl

theorem leftover_cons (b₀ b₁ b₂ b₃ : UInt8) (l : List UInt8) :
    leftover 4 (b₀ :: b₁ :: b₂ :: b₃ :: l) = leftover 4 l := by
  rw [leftover_of_le (by decide) (by simp only [List.length_cons]; omega)]
  rfl

theorem map_leNat_leBytes (xs : List ℕ) (h : ∀ x ∈ xs, x < 2^32) :
    (xs.map leBytes).map leNat = xs := by
  rw [List.map_map]
  exact (List.map_congr_left fun x hx => leNat_leBytes x (h x hx)).trans (List.map_id xs)

theorem decodeInts_encodeInts (xs : List ℕ) (h : ∀ x ∈ xs, x < 2^32) :
    decodeInts (encodeInts xs) = xs := by
  have hr := records_flatMap_append leBytes leBytes_length (by decide : 0 < 4) xs []
  rw [List.append_nil, records_of_lt (by decide : ([] : List UInt8).length < 4),
    List.append_nil] at hr
  rw [decodeInts, encodeInts, hr, map_leNat_leBytes xs h]

theorem decodeInts_take_encodeInts (xs : List ℕ) (h : ∀ x ∈ xs, x < 2^32) (n : ℕ) :
    decodeInts ((encodeInts xs).take n) = xs.take (((encodeInts xs).take n).length / 4) := by
  rw [decodeInts, encodeInts, records_take_flatMap leBytes leBytes_length (by decide)]
  exact map_leNat_leBytes _ fun x hx => h x (List.mem_of_mem_take hx)

theorem decodeInts_encodeInts_append (xs : List ℕ) (h : ∀ x ∈ xs, x < 2^32) (l : List UInt8) :
    decodeInts (encodeInts xs ++ l) = xs ++ decodeInts l := by
  rw [decodeInts, encodeInts, records_flatMap_append leBytes leBytes_length (by decide),
    List.map_append, map_leNat_leBytes xs h]
  rfl

theorem leBytes_leNat (l : List UInt8) (h : l.length = 4) : leBytes (leNat l) = l := by
  obtain ⟨b₀, b₁, b₂, b₃, rfl⟩ := List.length_eq_four.mp h
  have h₀ := b₀.toNat_lt
  have h₁ := b₁.toNat_lt
  have h₂ := b₂.toNat_lt
  have h₃ := b₃.toNat_lt
  simp only [leBytes, leNat, List.foldr_cons, List.foldr_nil, List.cons.injEq, ← UInt8.toNat_inj,
    UInt8.toNat_ofNat', and_true]
  refine ⟨?_, ?_, ?_, ?_⟩ <;> omega

/-- Reading a byte sequence and writing the integers back loses the leftover bytes only. -/
theorem encodeInts_decodeInts (l : List UInt8) : encodeInts (decodeInts l) ++ leftover 4 l = l := by
  have hmap : (decodeInts l).flatMap leBytes = (records 4 l).flatten := by
    rw [decodeInts, List.flatMap_map]
    refine (List.flatMap_congr fun r hr => ?_).trans List.flatMap_id'
    exact leBytes_leNat r (length_of_mem_records hr)
  rw [encodeInts, hmap]
  exact records_flatten_append_leftover (by decide) l

/-! Big-endian 32-bit integers, as sent over a network. -/

def beBytes (n : ℕ) : List UInt8 := (leBytes n).reverse

def beNat (l : List UInt8) : ℕ := leNat l.reverse

theorem beBytes_length (n : ℕ) : (beBytes n).length = 4 := rfl

theorem beNat_beBytes (n : ℕ) (h : n < 2^32) : beNat (beBytes n) = n := by
  rw [beNat, beBytes, List.reverse_reverse, leNat_leBytes n h]

/-- The integer whose little-endian bytes are the big-endian bytes of `n`. -/
def htonl (n : ℕ) : ℕ := leNat (beBytes n)

def ntohl (n : ℕ) : ℕ := beNat (leBytes n)

theorem leBytes_htonl (n : ℕ) : leBytes (htonl n) = beBytes n :=
  leBytes_leNat _ (beBytes_length n)

theorem ntohl_leNat {l : List UInt8} (h : l.length = 4) : ntohl (leNat l) = beNat l := by
  rw [ntohl, leBytes_leNat l h]

/-! Memory blocks. -/

/-- `memmove(mem + off, src, src.length)`. -/
def copyTo (mem : List α) (off : ℕ) (src : List α) : List α :=
  mem.take off ++ src ++ mem.drop (off+src.length)

theorem copyTo_length (mem : List α) (off : ℕ) (src : List α) (h : off+src.length ≤ mem.length) :
    (copyTo mem off src).length = mem.length := by
  simp only [copyTo, List.length_append, List.length_take, List.length_drop]
  omega

/-- Two writes, the second where the first ends, are one. -/
theorem copyTo_copyTo {mem : List α} {off : ℕ} (h : off ≤ mem.length) (a b : List α) :
    copyTo (copyTo mem off a) (off+a.length) b = copyTo mem off (a ++ b) := by
  have htake : (mem.take off ++ a).length = off+a.length := by
    rw [List.length_append, List.length_take, Nat.min_eq_left h]
  have hdrop : (mem.take off ++ a ++ mem.drop (off+a.length)).drop (off+a.length+b.length) =
      mem.drop (off+(a ++ b).length) := by
    rw [← htake, List.drop_length_add_append, List.drop_drop, htake, List.length_append,
      Nat.add_assoc]
  unfold copyTo
  rw [hdrop, List.take_left' htake, List.append_assoc (mem.take off) a b]

theorem take_copyTo (mem : List α) (off : ℕ) (src : List α) (h : off ≤ mem.length) :
    (copyTo mem off src).take (off+src.length) = mem.take off ++ src := by
  refine List.take_left' ?_
  rw [List.length_append, List.length_take, Nat.min_eq_left h]

theorem take_copyTo_front (mem : List α) (off : ℕ) (src : List α) (h : off ≤ mem.length) :
    (copyTo mem off src).take off = mem.take off := by
  rw [copyTo, List.append_assoc]
  exact List.take_left' (by rw [List.length_take, Nat.min_eq_left h])

/-! Strings in memory. -/

/-- The bytes before the first zero. -/
def strlen (l : List UInt8) : ℕ := (l.takeWhile (· ≠ 0)).length

theorem strlen_append_zero {s : List UInt8} (hs : 0 ∉ s) (l : List UInt8) :
    strlen (s ++ 0 :: l) = s.length := by
  have hall : ∀ b ∈ s, decide (b ≠ 0) = true := by
    intro b hb
    exact decide_eq_true fun hzero => hs (hzero ▸ hb)
  rw [strlen, List.takeWhile_append_of_pos hall, List.takeWhile_cons_of_neg (by decide),
    List.append_nil]

theorem strlen_zero_cons (l : List UInt8) : strlen (0 :: l) = 0 := rfl

theorem strlen_cons_of_ne {b : UInt8} (hb : b ≠ 0) (l : List UInt8) :
    strlen (b :: l) = strlen l+1 := by
  have hpos : decide (b ≠ 0) = true := decide_eq_true hb
  simp only [strlen, List.takeWhile_cons, hpos, if_true, List.length_cons]

/-! Lines. -/

section Lines

variable [DecidableEq α]

/-- The elements up to the first `a` and with it, or all when there is none. -/
def lineOf (a : α) : List α → List α
  | [] => []
  | b :: l => if b = a then [b] else b :: lineOf a l

/-- `l` cut behind every `a`. -/
def linesOf (a : α) : List α → List (List α)
  | [] => []
  | b :: l =>
    if b = a then [b] :: linesOf a l
    else
      match linesOf a l with
      | [] => [[b]]
      | m :: ms => (b :: m) :: ms

variable {a b : α} {l : List α}

theorem lineOf_nil : lineOf a [] = [] := rfl

theorem lineOf_cons_self : lineOf a (a :: l) = [a] := if_pos rfl

theorem lineOf_cons_of_ne (h : b ≠ a) : lineOf a (b :: l) = b :: lineOf a l := if_neg h

theorem lineOf_length_le : (lineOf a l).length ≤ l.length := by
  induction l with
  | nil => exact le_rfl
  | cons b l ih =>
    rw [lineOf]
    split
    · exact Nat.succ_le_succ (Nat.zero_le _)
    · exact Nat.succ_le_succ ih

theorem linesOf_cons_self : linesOf a (a :: l) = [a] :: linesOf a l := if_pos rfl

/-- An element that is not `a` joins the first line. -/
theorem linesOf_cons_of_ne (h : b ≠ a) :
    linesOf a (b :: l) = (b :: (linesOf a l).headD []) :: (linesOf a l).tail := by
  rw [linesOf, if_neg h]
  cases linesOf a l with
  | nil => rfl
  | cons m ms => rfl

theorem linesOf_eq_cons (h : l ≠ []) :
    linesOf a l = lineOf a l :: linesOf a (l.drop (lineOf a l).length) := by
  induction l with
  | nil => exact absurd rfl h
  | cons b l ih =>
    by_cases hb : b = a
    · rw [hb, linesOf_cons_self, lineOf_cons_self]
      rfl
    · rw [linesOf_cons_of_ne hb, lineOf_cons_of_ne hb, List.length_cons, List.drop_succ_cons]
      by_cases hl : l = []
      · rw [hl]
        rfl
      · rw [ih hl]
        rfl

theorem linesOf_flatten : (linesOf a l).flatten = l := by
  induction l with
  | nil => rfl
  | cons b l ih =>
    by_cases hb : b = a
    · rw [hb, linesOf_cons_self, List.flatten_cons, ih]
      rfl
    · rw [linesOf_cons_of_ne hb, List.flatten_cons, List.cons_append]
      refine congrArg (b :: ·) ?_
      conv_rhs => rw [← ih]
      cases linesOf a l with
      | nil => rfl
      | cons m ms => rfl

/-- A line ends with its only `a`; or it is the last, has no `a` and is not empty. -/
def IsLine (a : α) (lines : List (List α)) (k : ℕ) (line : List α) : Prop :=
  (∃ m, a ∉ m ∧ line = m ++ [a]) ∨ (a ∉ line ∧ line ≠ [] ∧ k+1 = lines.length)

theorem linesOf_isLine {k : ℕ} {line : List α} (h : (linesOf a l)[k]? = some line) :
    IsLine a (linesOf a l) k line := by
  induction l generalizing k line with
  | nil => cases h
  | cons b l ih =>
    by_cases hb : b = a
    · rw [hb, linesOf_cons_self] at h ⊢
      cases k with
      | zero => exact .inl ⟨[], List.not_mem_nil, (Option.some.inj h).symm⟩
      | succ k =>
        refine (ih h).imp_right fun hlast => ⟨hlast.1, hlast.2.1, ?_⟩
        rw [List.length_cons, hlast.2.2]
    · rw [linesOf_cons_of_ne hb] at h ⊢
      cases hlines : linesOf a l with
      | nil =>
        rw [hlines] at h
        cases k with
        | zero =>
          obtain rfl := Option.some.inj h
          refine .inr ⟨?_, List.cons_ne_nil _ _, rfl⟩
          exact fun hmem => hb (List.mem_singleton.mp hmem).symm
        | succ k => cases h
      | cons m ms =>
        rw [hlines] at h ih
        cases k with
        | zero =>
          -- the element joins the line `m`
          obtain rfl := Option.some.inj h
          rcases ih (k := 0) rfl with ⟨m', hm', rfl⟩ | ⟨hm, -, hlast⟩
          · refine .inl ⟨b :: m', ?_, rfl⟩
            exact fun hmem => (List.mem_cons.mp hmem).elim (fun heq => hb heq.symm) hm'
          · refine .inr ⟨?_, List.cons_ne_nil _ _, hlast⟩
            exact fun hmem => (List.mem_cons.mp hmem).elim (fun heq => hb heq.symm) hm
        | succ k => exact ih (k := k+1) h

end Lines

end LinuxPrograms.Lib
