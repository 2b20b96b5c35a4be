import Mathlib.Data.Nat.Digits.Lemmas
import Mathlib.Data.Int.Notation
import Mathlib.Data.List.TakeWhile
import Mathlib.Tactic.Common

/-! The numerals of C: what `strtol` reads of a string, the strings it reads to their end, and the
numbers as `printf` writes them. A string is its bytes before the `'\0'`. -/
namespace LinuxPrograms.Lib

/-- A string literal. -/
def bytes (s : String) : List UInt8 := s.toList.map fun c => UInt8.ofNat c.toNat

/-- `isspace` in the C locale. -/
def isspace (c : UInt8) : Bool := c.toNat = 32 || (9 ≤ c.toNat && c.toNat ≤ 13)

/-- The value of a digit; the letters are the digits from 10 on. -/
def digitVal (c : UInt8) : Option ℕ :=
  if 48 ≤ c.toNat ∧ c.toNat ≤ 57 then some (c.toNat-48)
  else if 97 ≤ c.toNat ∧ c.toNat ≤ 122 then some (c.toNat-87)
  else if 65 ≤ c.toNat ∧ c.toNat ≤ 90 then some (c.toNat-55)
  else none

def isDigit (base : ℕ) (c : UInt8) : Bool := (digitVal c).any (· < base)

/-- The value of a row of digits. -/
def numeral (base : ℕ) (ds : List UInt8) : ℕ :=
  ds.foldl (fun n c => base*n+(digitVal c).getD 0) 0

/-! `strtol`. -/

/-- Whether there is a minus sign, and what follows the sign. -/
def sign : List UInt8 → Bool × List UInt8
  | 45 :: s => (true, s)
  | 43 :: s => (false, s)
  | s => (false, s)

/-- `0x` counts only before a digit. -/
def hexPrefix : List UInt8 → Bool
  | 48 :: x :: c :: _ => (x = 120 || x = 88) && isDigit 16 c
  | _ => false

/-- The base that is used, and what follows the prefix. The base 0 goes by the prefix. -/
def radix (base : ℕ) (s : List UInt8) : ℕ × List UInt8 :=
  if (base = 0 ∨ base = 16) ∧ hexPrefix s then (16, s.drop 2)
  else if base = 0 then (if s.head? = some 48 then 8 else 10, s)
  else (base, s)

def longMin : ℤ := -2^63

def longMax : ℤ := 2^63-1

/-- What does not fit becomes the next number that does. -/
def toLong (v : ℤ) : ℤ := max longMin (min v longMax)

/-- The number, what stands at `*endptr`, and whether `errno` is `ERANGE` afterwards. -/
structure Strtol where
  res : ℤ
  endptr : List UInt8
  erange : Bool
deriving DecidableEq, Repr

/-- `strtol(nptr, &endptr, base)`. -/
def strtol (base : ℕ) (nptr : List UInt8) : Strtol :=
  let signed := sign (nptr.dropWhile isspace)
  let based := radix base signed.2
  let ds := based.2.takeWhile (isDigit based.1)
  let v : ℤ := if signed.1 then -(numeral based.1 ds : ℤ) else numeral based.1 ds
  if ds = [] then ⟨0, nptr, false⟩
  else ⟨toLong v, based.2.dropWhile (isDigit based.1), v < longMin || longMax < v⟩

/-! The strings that are numerals as a whole. -/

/-- The numerals without a sign. -/
inductive Digits (base : ℕ) : List UInt8 → ℕ → Prop
  | plain {ds : List UInt8} (hbase : base ≠ 0) (hne : ds ≠ [])
      (hds : ∀ c ∈ ds, isDigit base c = true) : Digits base ds (numeral base ds)
  | hex {x : UInt8} {ds : List UInt8} (hbase : base = 0 ∨ base = 16) (hx : x = 120 ∨ x = 88)
      (hne : ds ≠ []) (hds : ∀ c ∈ ds, isDigit 16 c = true) :
      Digits base (48 :: x :: ds) (numeral 16 ds)
  | octal {ds : List UInt8} (hbase : base = 0) (hds : ∀ c ∈ ds, isDigit 8 c = true) :
      Digits base (48 :: ds) (numeral 8 (48 :: ds))
  | decimal {ds : List UInt8} (hbase : base = 0) (hne : ds ≠ []) (hhead : ds.head? ≠ some 48)
      (hds : ∀ c ∈ ds, isDigit 10 c = true) : Digits base ds (numeral 10 ds)

inductive Signed (base : ℕ) : List UInt8 → ℤ → Prop
  | bare {s : List UInt8} {n : ℕ} (h : Digits base s n) : Signed base s n
  | plus {s : List UInt8} {n : ℕ} (h : Digits base s n) : Signed base (43 :: s) n
  | minus {s : List UInt8} {n : ℕ} (h : Digits base s n) : Signed base (45 :: s) (-n)

/-- White space may stand in front. -/
def Numeral (base : ℕ) (text : List UInt8) (v : ℤ) : Prop :=
  ∃ spaces s, (∀ c ∈ spaces, isspace c = true) ∧ text = spaces ++ s ∧ Signed base s v

variable {base : ℕ} {s text : List UInt8} {c : UInt8} {n : ℕ} {v : ℤ}

theorem not_space_of_digit (h : isDigit base c = true) : isspace c = false := by
  by_contra hspace
  rw [Bool.not_eq_false, isspace, Bool.or_eq_true, Bool.and_eq_true, decide_eq_true_iff,
    decide_eq_true_iff, decide_eq_true_iff] at hspace
  rw [isDigit, digitVal, if_neg (by omega), if_neg (by omega), if_neg (by omega)] at h
  cases h

theorem ne_sign_of_digit (h : isDigit base c = true) : c ≠ 43 ∧ c ≠ 45 := by
  refine ⟨?_, ?_⟩
  · rintro rfl
    cases h
  · rintro rfl
    cases h

theorem hexPrefix_iff : hexPrefix s = true ↔
    ∃ x c t, s = 48 :: x :: c :: t ∧ (x = 120 ∨ x = 88) ∧ isDigit 16 c = true := by
  constructor
  · intro h
    unfold hexPrefix at h
    split at h
    · next x c t =>
      rw [Bool.and_eq_true, Bool.or_eq_true, decide_eq_true_iff, decide_eq_true_iff] at h
      exact ⟨x, c, t, rfl, h⟩
    · cases h
  · rintro ⟨x, c, t, rfl, h⟩
    rw [hexPrefix, Bool.and_eq_true, Bool.or_eq_true, decide_eq_true_iff, decide_eq_true_iff]
    exact h

/-- No prefix in a row of digits. -/
theorem not_hexPrefix (hbase : base ≤ 16) (hds : ∀ c ∈ s, isDigit base c = true) :
    hexPrefix s = false := by
  by_contra h
  rw [Bool.not_eq_false, hexPrefix_iff] at h
  obtain ⟨x, c, t, rfl, hx, -⟩ := h
  have hdigit := hds x (List.mem_cons_of_mem _ List.mem_cons_self)
  have hval : digitVal x = some 33 := by
    rcases hx with rfl | rfl <;> rfl
  rw [isDigit, hval, Option.any_some, decide_eq_true_iff] at hdigit
  omega

/-- The numerals are what `strtol` finds digits in to the end. -/
theorem digits_iff : Digits base s n ↔
    (radix base s).2 ≠ [] ∧ (∀ c ∈ (radix base s).2, isDigit (radix base s).1 c = true) ∧
      n = numeral (radix base s).1 (radix base s).2 := by
  constructor
  · intro h
    cases h with
    | plain hbase hne hds =>
      have hradix : radix base s = (base, s) := by
        rw [radix, if_neg, if_neg hbase]
        rintro ⟨h | rfl, hhex⟩
        · exact hbase h
        · rw [not_hexPrefix (Nat.le_refl 16) hds] at hhex
          cases hhex
      rw [hradix]
      exact ⟨hne, hds, rfl⟩
    | @hex x ds hbase hx hne hds =>
      have hhex : hexPrefix (48 :: x :: ds) = true := by
        rw [hexPrefix_iff]
        cases ds with
        | nil => exact (hne rfl).elim
        | cons c t => exact ⟨x, c, t, rfl, hx, hds c List.mem_cons_self⟩
      have hradix : radix base (48 :: x :: ds) = (16, ds) := by
        rw [radix, if_pos ⟨hbase, hhex⟩]
        rfl
      rw [hradix]
      exact ⟨hne, hds, rfl⟩
    | @octal ds hbase hds =>
      have hall : ∀ c ∈ 48 :: ds, isDigit 8 c = true := by
        intro c hc
        rcases List.mem_cons.mp hc with rfl | hc
        · rfl
        · exact hds c hc
      have hradix : radix base (48 :: ds) = (8, 48 :: ds) := by
        rw [radix, not_hexPrefix (by decide) hall, if_neg (fun h => Bool.false_ne_true h.2),
          if_pos hbase]
        rfl
      rw [hradix]
      exact ⟨List.cons_ne_nil _ _, hall, rfl⟩
    | decimal hbase hne hhead hds =>
      have hradix : radix base s = (10, s) := by
        rw [radix, not_hexPrefix (by decide) hds, if_neg (fun h => Bool.false_ne_true h.2),
          if_pos hbase, if_neg hhead]
      rw [hradix]
      exact ⟨hne, hds, rfl⟩
  · rintro ⟨hne, hds, rfl⟩
    by_cases hhex : (base = 0 ∨ base = 16) ∧ hexPrefix s = true
    · obtain ⟨hbase, hprefix⟩ := hhex
      rw [radix, if_pos ⟨hbase, hprefix⟩] at hne hds ⊢
      obtain ⟨x, c, t, rfl, hx, -⟩ := hexPrefix_iff.mp hprefix
      exact .hex hbase hx hne hds
    · by_cases hbase : base = 0
      · rw [radix, if_neg hhex, if_pos hbase] at hne hds ⊢
        by_cases hhead : s.head? = some 48
        · rw [if_pos hhead] at hds ⊢
          cases s with
          | nil => cases hhead
          | cons c ds =>
            cases hhead
            exact .octal hbase fun c hc => hds c (List.mem_cons_of_mem _ hc)
        · rw [if_neg hhead] at hds ⊢
          exact .decimal hbase hne hhead hds
      · rw [radix, if_neg hhex, if_neg hbase] at hne hds ⊢
        exact .plain hbase hne hds

/-- A numeral starts with a digit. -/
theorem Digits.head (h : Digits base s n) : ∃ c t b, s = c :: t ∧ isDigit b c = true := by
  cases h with
  | plain _ hne hds | decimal _ hne _ hds =>
    cases s with
    | nil => exact (hne rfl).elim
    | cons c t => exact ⟨c, t, _, rfl, hds c List.mem_cons_self⟩
  | hex | octal => exact ⟨48, _, 8, rfl, rfl⟩

theorem sign_of_digit {t : List UInt8} (h : isDigit base c = true) :
    sign (c :: t) = (false, c :: t) := by
  obtain ⟨hplus, hminus⟩ := ne_sign_of_digit h
  unfold sign
  split
  · next heq => exact (hminus (List.cons_eq_cons.mp heq).1).elim
  · next heq => exact (hplus (List.cons_eq_cons.mp heq).1).elim
  · rfl

theorem signed_iff : Signed base s v ↔
    ∃ n, Digits base (sign s).2 n ∧ v = if (sign s).1 then -(n : ℤ) else n := by
  constructor
  · intro h
    cases h with
    | bare h =>
      obtain ⟨c, t, b, rfl, hc⟩ := h.head
      rw [sign_of_digit hc]
      exact ⟨_, h, rfl⟩
    | plus h => exact ⟨_, h, rfl⟩
    | minus h => exact ⟨_, h, rfl⟩
  · rintro ⟨n, h, rfl⟩
    unfold sign at h ⊢
    split at h
    · exact .minus h
    · exact .plus h
    · exact .bare h

theorem Signed.head (h : Signed base s v) : ∃ c t, s = c :: t ∧ isspace c = false := by
  cases h with
  | bare h =>
    obtain ⟨c, t, b, rfl, hc⟩ := h.head
    exact ⟨c, t, rfl, not_space_of_digit hc⟩
  | plus | minus => exact ⟨_, _, rfl, rfl⟩

theorem numeral_iff : Numeral base text v ↔ Signed base (text.dropWhile isspace) v := by
  constructor
  · rintro ⟨spaces, s, hspaces, rfl, h⟩
    obtain ⟨c, t, rfl, hc⟩ := h.head
    rw [List.dropWhile_append_of_pos hspaces, List.dropWhile_cons_of_neg (by rw [hc]; decide)]
    exact h
  · intro h
    refine ⟨text.takeWhile isspace, _, fun c hc => ?_, ?_, h⟩
    · exact List.mem_takeWhile_imp hc
    · exact List.takeWhile_append_dropWhile.symm

/-! What `strtol` answers. -/

theorem toLong_of_fits (hmin : longMin ≤ v) (hmax : v ≤ longMax) : toLong v = v := by
  rw [toLong, min_eq_left hmax, max_eq_right hmin]

/-- A numeral is read to its end. -/
theorem strtol_numeral (h : Numeral base text v) :
    strtol base text = ⟨toLong v, [], v < longMin || longMax < v⟩ := by
  obtain ⟨n, hdigits, rfl⟩ := signed_iff.mp (numeral_iff.mp h)
  obtain ⟨hne, hds, rfl⟩ := digits_iff.mp hdigits
  have htake := List.takeWhile_eq_self_iff.mpr hds
  have hdrop := List.dropWhile_eq_nil_iff.mpr hds
  simp only [strtol, htake, hdrop, if_neg hne]

/-- What is read to its end is empty or a numeral. -/
theorem strtol_endptr (h : (strtol base text).endptr = []) :
    text = [] ∨ ∃ v, Numeral base text v := by
  simp only [strtol] at h
  split at h
  · exact .inl h
  · next hne =>
    right
    have hds := List.dropWhile_eq_nil_iff.mp h
    refine ⟨_, numeral_iff.mpr (signed_iff.mpr ⟨_, digits_iff.mpr ⟨?_, hds, rfl⟩, rfl⟩)⟩
    intro hnil
    rw [hnil] at hne
    exact hne rfl

theorem Numeral.ne_nil (h : Numeral base text v) : text ≠ [] := by
  rintro rfl
  obtain ⟨c, t, hnil, -⟩ := (numeral_iff.mp h).head
  cases hnil

/-- A string is a numeral of one number. -/
theorem Numeral.unique {w : ℤ} (h : Numeral base text v) (h' : Numeral base text w) : v = w := by
  obtain ⟨n, hdigits, rfl⟩ := signed_iff.mp (numeral_iff.mp h)
  obtain ⟨m, hdigits', rfl⟩ := signed_iff.mp (numeral_iff.mp h')
  rw [(digits_iff.mp hdigits).2.2, (digits_iff.mp hdigits').2.2]

/-! The numbers as they are printed. -/

def digitByte (d : ℕ) : UInt8 := if d < 10 then UInt8.ofNat (48+d) else UInt8.ofNat (87+d)

theorem digitVal_digitByte : ∀ d < 36, digitVal (digitByte d) = some d := by
  decide

/-- `%o`, `%u` and `%x` for the bases 8, 10 and 16. -/
def inBase (base n : ℕ) : List UInt8 :=
  (if n = 0 then [0] else (Nat.digits base n).reverse).map digitByte

/-- With its sign; `%ld` for the base 10. -/
def printed (base : ℕ) (v : ℤ) : List UInt8 :=
  if v < 0 then 45 :: inBase base v.natAbs else inBase base v.natAbs

theorem numeral_map_digitByte {ds : List ℕ} (hds : ∀ d ∈ ds, d < 36) :
    numeral base (ds.map digitByte) = Nat.ofDigits base ds.reverse := by
  rw [numeral, Nat.ofDigits_eq_foldr, List.foldr_reverse, List.foldl_map]
  refine List.foldl_ext _ _ _ fun n d hd => ?_
  rw [digitVal_digitByte d (hds d hd), Option.getD_some, Nat.add_comm]
  rfl

theorem inBase_ne_nil : inBase base n ≠ [] := by
  intro h
  rw [inBase, List.map_eq_nil_iff] at h
  split at h
  · cases h
  · next hn => exact Nat.digits_ne_nil_iff_ne_zero.mpr hn (List.reverse_eq_nil_iff.mp h)

section
variable (hbase : 1 < base) (hmax : base ≤ 36)
include hbase hmax

theorem inBase_digits : ∀ c ∈ inBase base n, isDigit base c = true := by
  intro c hc
  obtain ⟨d, hd, rfl⟩ := List.mem_map.mp hc
  have hlt : d < base := by
    split at hd
    · rw [List.mem_singleton.mp hd]
      omega
    · exact Nat.digits_lt_base hbase (List.mem_reverse.mp hd)
  rw [isDigit, digitVal_digitByte d (by omega), Option.any_some]
  exact decide_eq_true hlt

theorem numeral_inBase (n : ℕ) : numeral base (inBase base n) = n := by
  rw [inBase, numeral_map_digitByte]
  · split
    · next hn =>
      rw [hn]
      exact Nat.ofDigits_singleton
    · rw [List.reverse_reverse, Nat.ofDigits_digits]
  · intro d hd
    split at hd
    · rw [List.mem_singleton.mp hd]
      decide
    · have hlt := Nat.digits_lt_base hbase (List.mem_reverse.mp hd)
      omega

theorem Digits.inBase (n : ℕ) : Digits base (inBase base n) n := by
  have h := Digits.plain (by omega) inBase_ne_nil (inBase_digits hbase hmax (n := n))
  rwa [numeral_inBase hbase hmax] at h

/-- Only 0 starts with `0`. -/
theorem inBase_head (hn : n ≠ 0) : (Lib.inBase base n).head? ≠ some 48 := by
  have hne := Nat.digits_ne_nil_iff_ne_zero (b := base).mpr hn
  have hlast := Nat.getLast_digit_ne_zero base hn
  have hlt := Nat.digits_lt_base hbase (List.getLast_mem hne)
  have hzero : ∀ d < 36, digitByte d = 48 → d = 0 := by decide
  rw [Lib.inBase, if_neg hn, List.head?_map, List.head?_reverse, List.getLast?_eq_some_getLast hne]
  intro h
  exact hlast (hzero _ (by omega) (Option.some.inj h))

end

theorem Digits.decimal_any (n : ℕ) : Digits 0 (Lib.inBase 10 n) n := by
  by_cases hn : n = 0
  · subst hn
    exact .octal rfl (fun c hc => (List.not_mem_nil hc).elim)
  · have h := Digits.decimal rfl inBase_ne_nil (inBase_head (by decide) (by decide) hn)
      (inBase_digits (by decide) (by decide))
    rwa [numeral_inBase (by decide) (by decide)] at h

theorem Digits.octal_any (n : ℕ) : Digits 0 (48 :: Lib.inBase 8 n) n := by
  have h := Digits.octal rfl (inBase_digits (by decide) (by decide) (n := n))
  have hzero : numeral 8 (48 :: Lib.inBase 8 n) = numeral 8 (Lib.inBase 8 n) := rfl
  rwa [hzero, numeral_inBase (by decide) (by decide)] at h

theorem Digits.hex_any (hbase : base = 0 ∨ base = 16) (n : ℕ) :
    Digits base (48 :: 120 :: Lib.inBase 16 n) n := by
  have h := Digits.hex hbase (.inl rfl) inBase_ne_nil
    (inBase_digits (by decide) (by decide) (n := n))
  rwa [numeral_inBase (by decide) (by decide)] at h

theorem Digits.numeral (h : Digits base s n) : Numeral base s n :=
  ⟨[], s, fun _ hc => (List.not_mem_nil hc).elim, rfl, .bare h⟩

theorem numeral_printed {b : ℕ} (h : ∀ n, Digits base (Lib.inBase b n) n) (v : ℤ) :
    Numeral base (printed b v) v := by
  unfold printed
  split
  · next hneg =>
    have hminus := Signed.minus (h v.natAbs)
    rw [show -(v.natAbs : ℤ) = v by omega] at hminus
    exact ⟨[], _, fun _ hc => (List.not_mem_nil hc).elim, rfl, hminus⟩
  · next hpos =>
    have hbare := (h v.natAbs).numeral
    rwa [show (v.natAbs : ℤ) = v by omega] at hbare

end LinuxPrograms.Lib
