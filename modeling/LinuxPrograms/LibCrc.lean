import Mathlib.Data.BitVec
import Mathlib.Data.List.Basic
import Mathlib.Data.List.GetD
import Mathlib.Tactic.Common

/-! Reflected cyclic redundancy checks of any width, one message bit at a time. The step is linear
over XOR, so the bits of a short message can be put into the register all at once; the table
step, the check value and the detection of bursts follow from that. -/
namespace LinuxPrograms.Lib

variable {w : ℕ} (poly : BitVec w)

/-- The register moves down by one bit; the bit that falls out, with the message bit, decides
whether the polynomial is added. -/
def crcBit (crc : BitVec w) (b : Bool) : BitVec w :=
  if crc.getLsbD 0 ^^ b then (crc >>> 1) ^^^ poly else crc >>> 1

def crcBits (crc : BitVec w) (bits : List Bool) : BitVec w := bits.foldl (crcBit poly) crc

/-- The register after `n` zero bits. -/
def crcZeros (n : ℕ) (crc : BitVec w) : BitVec w := crcBits poly crc (List.replicate n false)

variable {poly}

theorem crcBits_cons (crc : BitVec w) (b : Bool) (bits : List Bool) :
    crcBits poly crc (b :: bits) = crcBits poly (crcBit poly crc b) bits := rfl

theorem crcBits_append (crc : BitVec w) (l m : List Bool) :
    crcBits poly crc (l ++ m) = crcBits poly (crcBits poly crc l) m :=
  List.foldl_append

theorem crcZeros_succ (n : ℕ) (crc : BitVec w) :
    crcZeros poly (n+1) crc = crcZeros poly n (crcBit poly crc false) := by
  rw [crcZeros, List.replicate_succ, crcBits_cons, crcZeros]

/-! Linearity. -/

theorem crcBit_xor (poly c d : BitVec w) (a b : Bool) :
    crcBit poly (c ^^^ d) (a ^^ b) = crcBit poly c a ^^^ crcBit poly d b := by
  have hbit : ((c ^^^ d).getLsbD 0 ^^ (a ^^ b)) = ((c.getLsbD 0 ^^ a) ^^ (d.getLsbD 0 ^^ b)) := by
    rw [BitVec.getLsbD_xor]
    cases c.getLsbD 0 <;> cases d.getLsbD 0 <;> cases a <;> cases b <;> rfl
  unfold crcBit
  rw [hbit, BitVec.ushiftRight_xor_distrib]
  cases c.getLsbD 0 ^^ a <;> cases d.getLsbD 0 ^^ b
  · rfl
  · exact BitVec.xor_assoc _ _ _
  · change (c >>> 1 ^^^ d >>> 1) ^^^ poly = (c >>> 1 ^^^ poly) ^^^ d >>> 1
    rw [BitVec.xor_assoc, BitVec.xor_assoc, BitVec.xor_comm poly]
  -- the polynomial is added twice
  · change c >>> 1 ^^^ d >>> 1 = (c >>> 1 ^^^ poly) ^^^ (d >>> 1 ^^^ poly)
    rw [BitVec.xor_comm (d >>> 1) poly, BitVec.xor_assoc, ← BitVec.xor_assoc poly poly,
      BitVec.xor_self, BitVec.zero_xor]

theorem crcBits_xor {l m : List Bool} (h : l.length = m.length) (poly c d : BitVec w) :
    crcBits poly (c ^^^ d) (List.zipWith xor l m) = crcBits poly c l ^^^ crcBits poly d m := by
  induction l generalizing m c d with
  | nil =>
    rw [List.length_eq_zero_iff.mp h.symm]
    rfl
  | cons a l ih =>
    cases m with
    | nil => cases h
    | cons b m =>
      rw [List.zipWith_cons_cons, crcBits_cons, crcBits_cons, crcBits_cons, crcBit_xor]
      exact ih (Nat.succ.inj h) _ _

theorem crcZeros_xor (n : ℕ) (c d : BitVec w) :
    crcZeros poly n (c ^^^ d) = crcZeros poly n c ^^^ crcZeros poly n d := by
  induction n generalizing c d with
  | zero => rfl
  | succ n ih =>
    have hstep := crcBit_xor poly c d false false
    rw [crcZeros_succ, crcZeros_succ, crcZeros_succ, ← ih, ← hstep]
    rfl

theorem crcBit_zero (b : Bool) : crcBit poly 0#w b = if b then poly else 0#w := by
  unfold crcBit
  cases b <;> simp

theorem crcZeros_zero (n : ℕ) : crcZeros poly n 0#w = 0#w := by
  induction n with
  | zero => rfl
  | succ n ih =>
    rw [crcZeros_succ, crcBit_zero]
    exact ih

/-! The register loaded with the bits of a short message. -/

/-- The bits of `l` in the low places of the register. -/
def loadBits (w : ℕ) : List Bool → BitVec w
  | [] => 0#w
  | b :: l => (loadBits w l <<< 1) ^^^ (BitVec.ofBool b).setWidth w

theorem getLsbD_loadBits (l : List Bool) (i : ℕ) :
    (loadBits w l).getLsbD i = (decide (i < w) && l.getD i false) := by
  induction l generalizing i with
  | nil => simp [loadBits]
  | cons b l ih =>
    rw [loadBits, BitVec.getLsbD_xor, BitVec.getLsbD_shiftLeft, BitVec.getLsbD_setWidth, ih]
    cases i with
    | zero => simp
    | succ i =>
      by_cases hi : i+1 < w
      · have hi' : i < w := by omega
        simp [hi, hi']
      · simp [hi]

/-- A message bit can be put into the register before the step. -/
theorem crcBit_ofBool (hw : 0 < w) (c : BitVec w) (b : Bool) :
    crcBit poly (c ^^^ (BitVec.ofBool b).setWidth w) false = crcBit poly c b := by
  have hone : crcBit poly ((BitVec.ofBool b).setWidth w) b = 0#w := by
    unfold crcBit
    have hlow : ((BitVec.ofBool b).setWidth w).getLsbD 0 = b := by
      simp [hw]
    rw [hlow, Bool.xor_self, if_neg Bool.false_ne_true]
    apply BitVec.eq_of_getLsbD_eq
    intro i _
    simp
  have hxor := crcBit_xor poly c ((BitVec.ofBool b).setWidth w) b b
  rw [Bool.xor_self, hone, BitVec.xor_zero] at hxor
  exact hxor

/-- A register whose low bit is clear only moves down. -/
theorem crcBit_shiftLeft {x : BitVec w} (hx : x.getLsbD (w-1) = false) :
    crcBit poly (x <<< 1) false = x := by
  have hlow : (x <<< 1).getLsbD 0 = false := by simp
  unfold crcBit
  rw [hlow, Bool.xor_self, if_neg Bool.false_ne_true]
  apply BitVec.eq_of_getLsbD_eq
  intro i hi
  rw [BitVec.getLsbD_ushiftRight, BitVec.getLsbD_shiftLeft]
  by_cases htop : 1+i < w
  · have hle : ¬ 1+i < 1 := by omega
    simp [htop, hle]
  · have heq : i = w-1 := by omega
    subst heq
    rw [hx]
    simp [htop]

/-- A message no longer than the register can be put into it all at once. -/
theorem crcBits_eq_crcZeros {l : List Bool} (hl : l.length ≤ w) (c : BitVec w) :
    crcBits poly c l = crcZeros poly l.length (c ^^^ loadBits w l) := by
  induction l generalizing c with
  | nil => rw [loadBits, BitVec.xor_zero]; rfl
  | cons b l ih =>
    have hlt : l.length < w := hl
    -- the top bit is still free for the bits that follow
    have htop : (loadBits w l).getLsbD (w-1) = false := by
      rw [getLsbD_loadBits, List.getD_eq_default _ _ (by omega), Bool.and_false]
    have hstep : crcBit poly (c ^^^ loadBits w (b :: l)) false =
        crcBit poly c b ^^^ loadBits w l := by
      rw [loadBits, BitVec.xor_comm (loadBits w l <<< 1), ← BitVec.xor_assoc]
      have hxor := crcBit_xor poly (c ^^^ (BitVec.ofBool b).setWidth w)
        (loadBits w l <<< 1) false false
      rw [crcBit_ofBool (by omega), crcBit_shiftLeft htop] at hxor
      exact hxor
    rw [crcBits_cons, ih (by omega), List.length_cons, crcZeros_succ, hstep]

/-- A register whose low `n` bits are clear only moves down. -/
theorem crcZeros_of_low {n : ℕ} {x : BitVec w} (hx : ∀ i < n, x.getLsbD i = false) :
    crcZeros poly n x = x >>> n := by
  induction n generalizing x with
  | zero => exact (BitVec.ushiftRight_zero x).symm
  | succ n ih =>
    have hstep : crcBit poly x false = x >>> 1 := by
      unfold crcBit
      rw [hx 0 (Nat.succ_pos n), Bool.xor_self, if_neg Bool.false_ne_true]
    have hlow : ∀ i < n, (x >>> 1).getLsbD i = false := by
      intro i hi
      rw [BitVec.getLsbD_ushiftRight]
      exact hx (1+i) (by omega)
    rw [crcZeros_succ, hstep, ih hlow, ← BitVec.shiftRight_add, Nat.add_comm]

/-! Bytes, and the step with a table of the registers after eight zero bits. -/

/-- The bits of a byte, least significant first. -/
def byteBits (b : BitVec 8) : List Bool := (List.range 8).map b.getLsbD

def messageBits (data : List (BitVec 8)) : List Bool := data.flatMap byteBits

theorem byteBits_length (b : BitVec 8) : (byteBits b).length = 8 := by
  rw [byteBits, List.length_map, List.length_range]

theorem messageBits_length (data : List (BitVec 8)) :
    (messageBits data).length = 8*data.length := by
  induction data with
  | nil => rfl
  | cons b data ih =>
    rw [messageBits, List.flatMap_cons, List.length_append, byteBits_length, List.length_cons]
    change 8+(messageBits data).length = 8*(data.length+1)
    rw [ih, Nat.mul_add, Nat.add_comm]

theorem getD_byteBits (b : BitVec 8) (i : ℕ) : (byteBits b).getD i false = b.getLsbD i := by
  by_cases hi : i < 8
  · rw [List.getD_eq_getElem _ _ (by rwa [byteBits_length])]
    simp [byteBits]
  · rw [List.getD_eq_default _ _ (by rw [byteBits_length]; omega),
      BitVec.getLsbD_of_ge _ _ (by omega)]

theorem loadBits_byteBits (b : BitVec 8) : loadBits w (byteBits b) = b.setWidth w := by
  apply BitVec.eq_of_getLsbD_eq
  intro i hi
  rw [getLsbD_loadBits, getD_byteBits, BitVec.getLsbD_setWidth]

theorem crcBits_byteBits (hw : 8 ≤ w) (c : BitVec w) (b : BitVec 8) :
    crcBits poly c (byteBits b) = crcZeros poly 8 (c ^^^ b.setWidth w) := by
  rw [crcBits_eq_crcZeros (by rwa [byteBits_length]), byteBits_length, loadBits_byteBits]

/-- The low eight bits of a register. -/
def lowByte (c : BitVec w) : BitVec 8 := c.setWidth 8

/-- Eight zero bits: what the low byte becomes, and the other bits eight places down. -/
theorem crcZeros_eight (c : BitVec w) :
    crcZeros poly 8 c = crcZeros poly 8 ((lowByte c).setWidth w) ^^^ (c >>> 8) := by
  have hbit : ∀ i, ((lowByte c).setWidth w).getLsbD i =
      (decide (i < w) && (decide (i < 8) && c.getLsbD i)) := by
    intro i
    rw [BitVec.getLsbD_setWidth, lowByte, BitVec.getLsbD_setWidth]
  -- the bits above the low byte
  have hhigh : ∀ i < 8, (c ^^^ (lowByte c).setWidth w).getLsbD i = false := by
    intro i hi
    rw [BitVec.getLsbD_xor, hbit]
    by_cases hiw : i < w
    · simp [hi, hiw]
    · simp [BitVec.getLsbD_of_ge c i (by omega), hiw]
  have hsplit : c = (lowByte c).setWidth w ^^^ (c ^^^ (lowByte c).setWidth w) := by
    rw [BitVec.xor_comm c, ← BitVec.xor_assoc, BitVec.xor_self, BitVec.zero_xor]
  have hshift : (c ^^^ (lowByte c).setWidth w) >>> 8 = c >>> 8 := by
    apply BitVec.eq_of_getLsbD_eq
    intro i _
    have hge : ¬ 8+i < 8 := by omega
    rw [BitVec.getLsbD_ushiftRight, BitVec.getLsbD_ushiftRight, BitVec.getLsbD_xor, hbit]
    simp [hge]
  calc crcZeros poly 8 c
      = crcZeros poly 8 ((lowByte c).setWidth w ^^^ (c ^^^ (lowByte c).setWidth w)) := by
        rw [← hsplit]
    _ = crcZeros poly 8 ((lowByte c).setWidth w) ^^^
          crcZeros poly 8 (c ^^^ (lowByte c).setWidth w) := crcZeros_xor 8 _ _
    _ = crcZeros poly 8 ((lowByte c).setWidth w) ^^^ (c >>> 8) := by
        rw [crcZeros_of_low hhigh, hshift]

/-- The register after eight zero bits, for every byte. -/
def byteTable (poly : BitVec w) : List (BitVec w) :=
  (List.range 256).map fun i => crcZeros poly 8 (BitVec.ofNat w i)

theorem getD_byteTable (x : BitVec 8) :
    (byteTable poly).getD x.toNat 0#w = crcZeros poly 8 (x.setWidth w) := by
  unfold byteTable
  rw [List.getD_eq_getElem _ _ (by rw [List.length_map, List.length_range]; exact x.isLt),
    List.getElem_map, List.getElem_range, BitVec.ofNat_toNat]

/-- A byte of the message is one look at the table and a shift. -/
theorem crcBits_eq_byteTable (hw : 8 ≤ w) (c : BitVec w) (b : BitVec 8) :
    crcBits poly c (byteBits b) =
      (byteTable poly).getD (lowByte (c ^^^ b.setWidth w)).toNat 0#w ^^^
        ((c ^^^ b.setWidth w) >>> 8) := by
  rw [crcBits_byteBits hw, crcZeros_eight, getD_byteTable]

theorem messageBits_injective : Function.Injective messageBits := by
  intro r s h
  induction r generalizing s with
  | nil =>
    have hlen := congrArg List.length h
    rw [messageBits_length, messageBits_length] at hlen
    exact (List.length_eq_zero_iff.mp (by simpa using hlen.symm)).symm
  | cons a r ih =>
    cases s with
    | nil =>
      have hlen := congrArg List.length h
      rw [messageBits_length, messageBits_length, List.length_cons, List.length_nil] at hlen
      omega
    | cons b s =>
      obtain ⟨hbyte, hrest⟩ := List.append_inj h (by rw [byteBits_length, byteBits_length])
      have hab : a = b := by
        apply BitVec.eq_of_getLsbD_eq
        intro i _
        rw [← getD_byteBits, ← getD_byteBits, hbyte]
      rw [hab, ih hrest]

/-! Bursts. With the top bit of the polynomial set no register but zero becomes zero, so a
difference of at most `w` consecutive bits is never forgotten. -/

/-- All places where the lists differ are among `n` consecutive ones. -/
def Burst (n : ℕ) (l m : List Bool) : Prop := ∃ i, ∀ j : ℕ, l[j]? ≠ m[j]? → i ≤ j ∧ j < i+n

/-- Only the places inside the lists need to be looked at. -/
theorem burst_of_lt {n : ℕ} {l m : List Bool} (hlen : l.length = m.length) (i : ℕ)
    (h : ∀ j < l.length, l[j]? ≠ m[j]? → i ≤ j ∧ j < i+n) : Burst n l m := by
  refine ⟨i, fun j hj => ?_⟩
  apply h j _ hj
  by_contra hge
  apply hj
  rw [List.getElem?_eq_none (by omega), List.getElem?_eq_none (by omega)]

theorem getElem?_zipWith_xor {l m : List Bool} (h : l.length = m.length) (j : ℕ) :
    (List.zipWith xor l m)[j]? = some true ↔ l[j]? ≠ m[j]? := by
  rw [List.getElem?_zipWith]
  by_cases hj : j < l.length
  · rw [List.getElem?_eq_getElem hj, List.getElem?_eq_getElem (h ▸ hj)]
    cases l[j] <;> cases m[j] <;> simp
  · rw [List.getElem?_eq_none (by omega), List.getElem?_eq_none (by omega)]
    simp

theorem eq_replicate_false {l : List Bool} (h : ∀ j : ℕ, l[j]? ≠ some true) :
    l = List.replicate l.length false := by
  apply List.eq_replicate_iff.mpr
  refine ⟨rfl, fun b hb => ?_⟩
  obtain ⟨j, hj, rfl⟩ := List.mem_iff_getElem.mp hb
  have hne := h j
  rw [List.getElem?_eq_getElem hj] at hne
  exact Bool.eq_false_iff.mpr fun htrue => hne (congrArg some htrue)

section Bursts

variable (hpoly : poly.getLsbD (w-1) = true)
include hpoly

theorem crcBit_eq_zero {c : BitVec w} (h : crcBit poly c false = 0#w) : c = 0#w := by
  have hw : 0 < w := by
    by_contra hw
    rw [BitVec.getLsbD_of_ge _ _ (by omega)] at hpoly
    cases hpoly
  unfold crcBit at h
  rw [Bool.xor_false] at h
  cases hlow : c.getLsbD 0 with
  | true =>
    -- the top bit of the result is the polynomial's
    have htop := congrArg (fun x => x.getLsbD (w-1)) h
    rw [hlow, if_pos rfl] at htop
    simp only [BitVec.getLsbD_xor, BitVec.getLsbD_ushiftRight, hpoly, BitVec.getLsbD_zero] at htop
    rw [BitVec.getLsbD_of_ge c _ (by omega)] at htop
    cases htop
  | false =>
    rw [hlow, if_neg Bool.false_ne_true] at h
    apply BitVec.eq_of_getLsbD_eq
    intro i _
    cases i with
    | zero => rw [hlow, BitVec.getLsbD_zero]
    | succ i =>
      have hbit := congrArg (fun x => x.getLsbD i) h
      simp only [BitVec.getLsbD_ushiftRight, BitVec.getLsbD_zero] at hbit
      rw [Nat.add_comm, hbit, BitVec.getLsbD_zero]

theorem crcZeros_eq_zero {n : ℕ} {c : BitVec w} (h : crcZeros poly n c = 0#w) : c = 0#w := by
  induction n generalizing c with
  | zero => exact h
  | succ n ih =>
    rw [crcZeros_succ] at h
    exact crcBit_eq_zero hpoly (ih h)

theorem crcBits_ne_zero {l : List Bool} (hl : l.length ≤ w) (h : true ∈ l) :
    crcBits poly 0#w l ≠ 0#w := by
  intro hzero
  rw [crcBits_eq_crcZeros hl, BitVec.zero_xor] at hzero
  have hload := crcZeros_eq_zero hpoly hzero
  obtain ⟨i, hi, htrue⟩ := List.mem_iff_getElem.mp h
  have hbit := congrArg (fun x => x.getLsbD i) hload
  have hiw : i < w := by omega
  simp only [getLsbD_loadBits, BitVec.getLsbD_zero, hiw, decide_true, Bool.true_and,
    List.getD_eq_getElem _ _ hi, htrue] at hbit
  cases hbit

/-- Two messages that differ in a burst no longer than the register have different checks. -/
theorem crcBits_ne_of_burst {l m : List Bool} (hlen : l.length = m.length) (hne : l ≠ m)
    (hburst : Burst w l m) (c : BitVec w) : crcBits poly c l ≠ crcBits poly c m := by
  intro heq
  obtain ⟨i, hi⟩ := hburst
  set d := List.zipWith xor l m with hd
  have hzero : crcBits poly 0#w d = 0#w := by
    have hxor := crcBits_xor hlen poly c c
    rw [heq, BitVec.xor_self, BitVec.xor_self] at hxor
    exact hxor
  -- zeros, the burst, zeros
  have hbefore : d.take i = List.replicate (d.take i).length false := by
    apply eq_replicate_false
    intro j hj
    rw [List.getElem?_take] at hj
    split at hj
    · have hrange := hi j ((getElem?_zipWith_xor hlen j).mp hj)
      omega
    · cases hj
  have hafter : (d.drop i).drop w = List.replicate ((d.drop i).drop w).length false := by
    apply eq_replicate_false
    intro j hj
    rw [List.getElem?_drop, List.getElem?_drop] at hj
    have hrange := hi _ ((getElem?_zipWith_xor hlen _).mp hj)
    omega
  have hmem : true ∈ (d.drop i).take w := by
    obtain ⟨j, hj⟩ : ∃ j : ℕ, l[j]? ≠ m[j]? := by
      by_contra hall
      exact hne (List.ext_getElem? fun j => by_contra fun hj => hall ⟨j, hj⟩)
    obtain ⟨hle, hlt⟩ := hi j hj
    have htrue := (getElem?_zipWith_xor hlen j).mpr hj
    apply List.mem_of_getElem? (i := j-i)
    rw [List.getElem?_take, if_pos (by omega), List.getElem?_drop, Nat.add_sub_cancel' hle]
    exact htrue
  have hstart : crcBits poly 0#w (d.take i) = 0#w := by
    rw [hbefore]
    exact crcZeros_zero _
  rw [← List.take_append_drop i d, crcBits_append, hstart, ← List.take_append_drop w (d.drop i),
    crcBits_append, hafter] at hzero
  have hlast := crcZeros_eq_zero hpoly hzero
  exact crcBits_ne_zero hpoly (by rw [List.length_take]; exact Nat.min_le_left _ _) hmem hlast

end Bursts

/-- A register followed by its own bits becomes zero. -/
theorem crcBits_own_bits {c : BitVec w} {l : List Bool} (hl : l.length ≤ w)
    (hload : loadBits w l = c) : crcBits poly c l = 0#w := by
  rw [crcBits_eq_crcZeros hl, hload, BitVec.xor_self]
  exact crcZeros_zero _

end LinuxPrograms.Lib
