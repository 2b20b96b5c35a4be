import LinuxPrograms.LibNumerals
import Mathlib.Data.BitVec

/-! `getLong` and `getInt` (lib, get_num.c), which take a number from the command line or end the
program. -/
namespace LinuxPrograms.GetNum
open Lib

def gnNonneg : BitVec 32 := 0o1

def gnGt0 : BitVec 32 := 0o2

def gnAnyBase : BitVec 32 := 0o100

def gnBase8 : BitVec 32 := 0o200

def gnBase16 : BitVec 32 := 0o400

/-- What is printed before `exit(EXIT_FAILURE)`. -/
def gnFail (fname msg : String) (arg name : Option (List UInt8)) : List UInt8 :=
  bytes (fname ++ " error") ++
    name.elim [] (fun n => bytes " (in " ++ n ++ bytes ")") ++
    bytes (": " ++ msg ++ "\n") ++
    match arg with
    | none | some [] => []
    | some text => bytes "        offending text: " ++ text ++ bytes "\n"

/-- The base for `strtol`. -/
def base (flags : BitVec 32) : ℕ :=
  if flags &&& gnAnyBase ≠ 0 then 0
  else if flags &&& gnBase8 ≠ 0 then 8
  else if flags &&& gnBase16 ≠ 0 then 16
  else 10

/-- `.error`: the program has ended. -/
def getNum (fname : String) (arg : Option (List UInt8)) (flags : BitVec 32)
    (name : Option (List UInt8)) : Except (List UInt8) ℤ :=
  match arg with
  | none | some [] => .error (gnFail fname "null or empty string" arg name)
  | some text =>
    if (strtol (base flags) text).erange then .error (gnFail fname "strtol() failed" arg name)
    else if (strtol (base flags) text).endptr ≠ [] then
      .error (gnFail fname "nonnumeric characters" arg name)
    else if flags &&& gnNonneg ≠ 0 ∧ (strtol (base flags) text).res < 0 then
      .error (gnFail fname "negative value not allowed" arg name)
    else if flags &&& gnGt0 ≠ 0 ∧ (strtol (base flags) text).res ≤ 0 then
      .error (gnFail fname "value must be > 0" arg name)
    else .ok (strtol (base flags) text).res

def getLong (arg : Option (List UInt8)) (flags : BitVec 32) (name : Option (List UInt8)) :
    Except (List UInt8) ℤ :=
  getNum "getLong" arg flags name

def intMin : ℤ := -2^31

def intMax : ℤ := 2^31-1

def getInt (arg : Option (List UInt8)) (flags : BitVec 32) (name : Option (List UInt8)) :
    Except (List UInt8) ℤ :=
  match getNum "getInt" arg flags name with
  | .error text => .error text
  | .ok res =>
    if res > intMax ∨ res < intMin then .error (gnFail "getInt" "integer out of range" arg name)
    else .ok res

variable {fname : String} {arg name : Option (List UInt8)} {flags : BitVec 32} {v : ℤ}

/-- The numbers that the flags allow. -/
structure Allowed (flags : BitVec 32) (v : ℤ) : Prop where
  nonneg : flags &&& gnNonneg ≠ 0 → 0 ≤ v
  gt_0 : flags &&& gnGt0 ≠ 0 → 0 < v

/-- What is to be said of an argument that is not taken: the message names the check that fails. -/
inductive Complaint (flags : BitVec 32) : Option (List UInt8) → String → Prop
  | null : Complaint flags none "null or empty string"
  | empty : Complaint flags (some []) "null or empty string"
  | failed {text : List UInt8} (h : (strtol (base flags) text).erange = true) :
      Complaint flags (some text) "strtol() failed"
  | nonnumeric {text : List UInt8} (h : ∀ v, ¬Numeral (base flags) text v) :
      Complaint flags (some text) "nonnumeric characters"
  | negative {text : List UInt8} {v : ℤ} (h : Numeral (base flags) text v)
      (hflag : flags &&& gnNonneg ≠ 0) (hv : v < 0) :
      Complaint flags (some text) "negative value not allowed"
  | notPositive {text : List UInt8} {v : ℤ} (h : Numeral (base flags) text v)
      (hflag : flags &&& gnGt0 ≠ 0) (hv : v ≤ 0) :
      Complaint flags (some text) "value must be > 0"

/-- What `getNum` takes and what it says of the rest. -/
def Correct (fname : String) (arg : Option (List UInt8)) (flags : BitVec 32)
    (name : Option (List UInt8)) : Except (List UInt8) ℤ → Prop
  | .ok v => ∃ text, arg = some text ∧ Numeral (base flags) text v ∧ longMin ≤ v ∧ v ≤ longMax ∧
      Allowed flags v
  | .error said => ∃ msg, said = gnFail fname msg arg name ∧ Complaint flags arg msg

/-- `strtol` has read the whole of a numeral, and no number was too large for it. -/
theorem numeral_of_read {base : ℕ} {text : List UInt8} (hne : text ≠ [])
    (herange : (strtol base text).erange = false) (hend : (strtol base text).endptr = []) :
    ∃ v, Numeral base text v ∧ (strtol base text).res = v ∧ longMin ≤ v ∧ v ≤ longMax := by
  obtain ⟨v, hv⟩ := (strtol_endptr hend).resolve_left hne
  rw [strtol_numeral hv, Bool.or_eq_false_iff, decide_eq_false_iff_not, Int.not_lt,
    decide_eq_false_iff_not, Int.not_lt] at herange
  refine ⟨v, hv, ?_, herange⟩
  rw [strtol_numeral hv]
  exact toLong_of_fits herange.1 herange.2

theorem getNum_correct (fname : String) (arg : Option (List UInt8)) (flags : BitVec 32)
    (name : Option (List UInt8)) : Correct fname arg flags name (getNum fname arg flags name) := by
  unfold getNum
  split
  · exact ⟨_, rfl, .null⟩
  · exact ⟨_, rfl, .empty⟩
  · next text hne =>
    split
    · next herange => exact ⟨_, rfl, .failed herange⟩
    · next herange =>
      rw [Bool.not_eq_true] at herange
      split
      · next hend =>
        refine ⟨_, rfl, .nonnumeric fun v hv => hend ?_⟩
        rw [strtol_numeral hv]
      · next hend =>
        rw [not_not] at hend
        obtain ⟨v, hv, hres, hmin, hmax⟩ := numeral_of_read hne herange hend
        rw [hres]
        split
        · next h => exact ⟨_, rfl, .negative hv h.1 h.2⟩
        · next hneg =>
          split
          · next h => exact ⟨_, rfl, .notPositive hv h.1 h.2⟩
          · next hpos =>
            refine ⟨text, rfl, hv, hmin, hmax, fun hflag => ?_, fun hflag => ?_⟩
            · exact Int.not_lt.mp fun h => hneg ⟨hflag, h⟩
            · exact Int.not_le.mp fun h => hpos ⟨hflag, h⟩

/-- What is complained about is not a number that would do. -/
theorem Complaint.not_allowed {msg : String} {text : List UInt8}
    (h : Complaint flags (some text) msg) (hv : Numeral (base flags) text v) (hmin : longMin ≤ v)
    (hmax : v ≤ longMax) : ¬Allowed flags v := by
  intro hallowed
  generalize harg : some text = arg at h
  cases h with
  | null => cases harg
  | empty =>
    cases harg
    exact hv.ne_nil rfl
  | failed herange =>
    cases harg
    rw [strtol_numeral hv, Bool.or_eq_true, decide_eq_true_iff, decide_eq_true_iff] at herange
    omega
  | nonnumeric hnone =>
    cases harg
    exact hnone v hv
  | negative hw hflag hneg =>
    cases harg
    have hnonneg := hallowed.nonneg hflag
    rw [hv.unique hw] at hnonneg
    omega
  | notPositive hw hflag hle =>
    cases harg
    have hpos := hallowed.gt_0 hflag
    rw [hv.unique hw] at hpos
    omega

theorem getNum_iff : getNum fname arg flags name = .ok v ↔
    ∃ text, arg = some text ∧ Numeral (base flags) text v ∧ longMin ≤ v ∧ v ≤ longMax ∧
      Allowed flags v := by
  have hcorrect := getNum_correct fname arg flags name
  constructor
  · intro h
    rw [h] at hcorrect
    exact hcorrect
  · rintro ⟨text, rfl, hv, hmin, hmax, hallowed⟩
    cases hres : getNum fname (some text) flags name with
    | ok w =>
      rw [hres] at hcorrect
      obtain ⟨text', htext, hw, -⟩ := hcorrect
      cases htext
      rw [hv.unique hw]
    | error said =>
      rw [hres] at hcorrect
      obtain ⟨msg, -, hmsg⟩ := hcorrect
      exact (hmsg.not_allowed hv hmin hmax hallowed).elim

theorem getInt_ok_iff : getInt arg flags name = .ok v ↔
    ∃ text, arg = some text ∧ Numeral (base flags) text v ∧ intMin ≤ v ∧ v ≤ intMax ∧
      Allowed flags v := by
  have hmin : longMin ≤ intMin := by decide
  have hmax : intMax ≤ longMax := by decide
  unfold getInt
  constructor
  · intro h
    split at h
    · cases h
    · next res hres =>
      split at h <;> cases h
      next hfits =>
      obtain ⟨text, rfl, hv, -, -, hallowed⟩ := getNum_iff.mp hres
      exact ⟨text, rfl, hv, by omega, by omega, hallowed⟩
  · rintro ⟨text, rfl, hv, hlow, hhigh, hallowed⟩
    have hres : getNum "getInt" (some text) flags name = .ok v :=
      getNum_iff.mpr ⟨text, rfl, hv, by omega, by omega, hallowed⟩
    rw [hres]
    exact if_neg (by omega)

/-- `getLong` takes exactly the numerals of the base that the flags choose whose number is a `long`
that the flags allow, `getInt` those whose number is an `int`; the answer is the number. -/
theorem getLong_getInt_iff (arg : Option (List UInt8)) (flags : BitVec 32)
    (name : Option (List UInt8)) (v : ℤ) :
    (getLong arg flags name = .ok v ↔
      ∃ text, arg = some text ∧ Numeral (base flags) text v ∧ longMin ≤ v ∧ v ≤ longMax ∧
        Allowed flags v) ∧
    (getInt arg flags name = .ok v ↔
      ∃ text, arg = some text ∧ Numeral (base flags) text v ∧ intMin ≤ v ∧ v ≤ intMax ∧
        Allowed flags v) :=
  ⟨getNum_iff, getInt_ok_iff⟩

/-- What `getInt` prints when it ends the program is true: the message names a check that the
argument fails. -/
theorem getInt_complains {said : List UInt8} (h : getInt arg flags name = .error said) :
    ∃ msg, said = gnFail "getInt" msg arg name ∧
      (Complaint flags arg msg ∨
        msg = "integer out of range" ∧ ∃ text v, arg = some text ∧ Numeral (base flags) text v ∧
          Allowed flags v ∧ ¬(intMin ≤ v ∧ v ≤ intMax)) := by
  have hcorrect := getNum_correct "getInt" arg flags name
  unfold getInt at h
  split at h
  · next hres =>
    cases h
    rw [hres] at hcorrect
    obtain ⟨msg, hsaid, hmsg⟩ := hcorrect
    exact ⟨msg, hsaid, .inl hmsg⟩
  · next res hres =>
    rw [hres] at hcorrect
    obtain ⟨text, harg, hv, -, -, hallowed⟩ := hcorrect
    split at h <;> cases h
    next hrange =>
    exact ⟨_, rfl, .inr ⟨rfl, text, res, harg, hv, hallowed, by omega⟩⟩

/-- `2147483648`. -/
theorem getInt_complains_large :
    ∃ msg, gnFail "getInt" "integer out of range" (some (bytes "2147483648")) none =
        gnFail "getInt" msg (some (bytes "2147483648")) none ∧
      (Complaint 0 (some (bytes "2147483648")) msg ∨
        msg = "integer out of range" ∧ ∃ text v, some (bytes "2147483648") = some text ∧
          Numeral (base 0) text v ∧ Allowed 0 v ∧ ¬(intMin ≤ v ∧ v ≤ intMax)) :=
  getInt_complains (show getInt (some (bytes "2147483648")) 0 none = .error _ from rfl)

/-! Numbers that were printed. -/

/-- The base to print in: 10 where any base is read. -/
def printBase (flags : BitVec 32) : ℕ := if base flags = 0 then 10 else base flags

theorem numeral_printBase (flags : BitVec 32) (v : ℤ) :
    Numeral (base flags) (printed (printBase flags) v) v := by
  refine numeral_printed (fun n => ?_) v
  unfold printBase
  split
  · next hany =>
    rw [hany]
    exact Digits.decimal_any n
  · next hbase =>
    have hbounds : 1 < base flags ∧ base flags ≤ 36 := by
      unfold base at hbase ⊢
      split_ifs at hbase ⊢ <;> omega
    exact Digits.inBase hbounds.1 hbounds.2 n

/-- `getInt` reads back what was printed in the base of the flags, and nothing else, if it is an
`int` that they allow. -/
theorem getInt_printed (flags : BitVec 32) (name : Option (List UInt8)) (v w : ℤ) :
    getInt (some (printed (printBase flags) v)) flags name = .ok w ↔
      w = v ∧ intMin ≤ v ∧ v ≤ intMax ∧ Allowed flags v := by
  rw [getInt_ok_iff]
  constructor
  · rintro ⟨text, htext, hw, hallowed⟩
    cases htext
    have hsame := hw.unique (numeral_printBase flags v)
    rw [hsame] at hallowed
    exact ⟨hsame, hallowed⟩
  · rintro ⟨rfl, hallowed⟩
    exact ⟨_, rfl, numeral_printBase flags w, hallowed⟩

end LinuxPrograms.GetNum
