import LinuxPrograms.LibCrc

/-! `CRC16` (crc16.c): the register is kept as two bytes and moved by two tables. It computes the
reflected CRC bit by bit; a frame followed by its check leaves zero, and a burst of up to 16 bits
in such a frame does not. -/
namespace LinuxPrograms.Crc
open Lib

/-- `arr_crc_hi`. -/
def arrCrcHi : List (BitVec 8) :=
  [0x00#8, 0xC1#8, 0x81#8, 0x40#8, 0x01#8, 0xC0#8, 0x80#8, 0x41#8, 0x01#8, 0xC0#8, 0x80#8, 0x41#8,
    0x00#8, 0xC1#8, 0x81#8, 0x40#8, 0x01#8, 0xC0#8, 0x80#8, 0x41#8, 0x00#8, 0xC1#8, 0x81#8, 0x40#8,
    0x00#8, 0xC1#8, 0x81#8, 0x40#8, 0x01#8, 0xC0#8, 0x80#8, 0x41#8, 0x01#8, 0xC0#8, 0x80#8, 0x41#8,
    0x00#8, 0xC1#8, 0x81#8, 0x40#8, 0x00#8, 0xC1#8, 0x81#8, 0x40#8, 0x01#8, 0xC0#8, 0x80#8, 0x41#8,
    0x00#8, 0xC1#8, 0x81#8, 0x40#8, 0x01#8, 0xC0#8, 0x80#8, 0x41#8, 0x01#8, 0xC0#8, 0x80#8, 0x41#8,
    0x00#8, 0xC1#8, 0x81#8, 0x40#8, 0x01#8, 0xC0#8, 0x80#8, 0x41#8, 0x00#8, 0xC1#8, 0x81#8, 0x40#8,
    0x00#8, 0xC1#8, 0x81#8, 0x40#8, 0x01#8, 0xC0#8, 0x80#8, 0x41#8, 0x00#8, 0xC1#8, 0x81#8, 0x40#8,
    0x01#8, 0xC0#8, 0x80#8, 0x41#8, 0x01#8, 0xC0#8, 0x80#8, 0x41#8, 0x00#8, 0xC1#8, 0x81#8, 0x40#8,
    0x00#8, 0xC1#8, 0x81#8, 0x40#8, 0x01#8, 0xC0#8, 0x80#8, 0x41#8, 0x01#8, 0xC0#8, 0x80#8, 0x41#8,
    0x00#8, 0xC1#8, 0x81#8, 0x40#8, 0x01#8, 0xC0#8, 0x80#8, 0x41#8, 0x00#8, 0xC1#8, 0x81#8, 0x40#8,
    0x00#8, 0xC1#8, 0x81#8, 0x40#8, 0x01#8, 0xC0#8, 0x80#8, 0x41#8, 0x01#8, 0xC0#8, 0x80#8, 0x41#8,
    0x00#8, 0xC1#8, 0x81#8, 0x40#8, 0x00#8, 0xC1#8, 0x81#8, 0x40#8, 0x01#8, 0xC0#8, 0x80#8, 0x41#8,
    0x00#8, 0xC1#8, 0x81#8, 0x40#8, 0x01#8, 0xC0#8, 0x80#8, 0x41#8, 0x01#8, 0xC0#8, 0x80#8, 0x41#8,
    0x00#8, 0xC1#8, 0x81#8, 0x40#8, 0x00#8, 0xC1#8, 0x81#8, 0x40#8, 0x01#8, 0xC0#8, 0x80#8, 0x41#8,
    0x01#8, 0xC0#8, 0x80#8, 0x41#8, 0x00#8, 0xC1#8, 0x81#8, 0x40#8, 0x01#8, 0xC0#8, 0x80#8, 0x41#8,
    0x00#8, 0xC1#8, 0x81#8, 0x40#8, 0x00#8, 0xC1#8, 0x81#8, 0x40#8, 0x01#8, 0xC0#8, 0x80#8, 0x41#8,
    0x00#8, 0xC1#8, 0x81#8, 0x40#8, 0x01#8, 0xC0#8, 0x80#8, 0x41#8, 0x01#8, 0xC0#8, 0x80#8, 0x41#8,
    0x00#8, 0xC1#8, 0x81#8, 0x40#8, 0x01#8, 0xC0#8, 0x80#8, 0x41#8, 0x00#8, 0xC1#8, 0x81#8, 0x40#8,
    0x00#8, 0xC1#8, 0x81#8, 0x40#8, 0x01#8, 0xC0#8, 0x80#8, 0x41#8, 0x01#8, 0xC0#8, 0x80#8, 0x41#8,
    0x00#8, 0xC1#8, 0x81#8, 0x40#8, 0x00#8, 0xC1#8, 0x81#8, 0x40#8, 0x01#8, 0xC0#8, 0x80#8, 0x41#8,
    0x00#8, 0xC1#8, 0x81#8, 0x40#8, 0x01#8, 0xC0#8, 0x80#8, 0x41#8, 0x01#8, 0xC0#8, 0x80#8, 0x41#8,
    0x00#8, 0xC1#8, 0x81#8, 0x40#8]

/-- `arr_crc_lo`. -/
def arrCrcLo : List (BitVec 8) :=
  [0x00#8, 0xC0#8, 0xC1#8, 0x01#8, 0xC3#8, 0x03#8, 0x02#8, 0xC2#8, 0xC6#8, 0x06#8, 0x07#8, 0xC7#8,
    0x05#8, 0xC5#8, 0xC4#8, 0x04#8, 0xCC#8, 0x0C#8, 0x0D#8, 0xCD#8, 0x0F#8, 0xCF#8, 0xCE#8, 0x0E#8,
    0x0A#8, 0xCA#8, 0xCB#8, 0x0B#8, 0xC9#8, 0x09#8, 0x08#8, 0xC8#8, 0xD8#8, 0x18#8, 0x19#8, 0xD9#8,
    0x1B#8, 0xDB#8, 0xDA#8, 0x1A#8, 0x1E#8, 0xDE#8, 0xDF#8, 0x1F#8, 0xDD#8, 0x1D#8, 0x1C#8, 0xDC#8,
    0x14#8, 0xD4#8, 0xD5#8, 0x15#8, 0xD7#8, 0x17#8, 0x16#8, 0xD6#8, 0xD2#8, 0x12#8, 0x13#8, 0xD3#8,
    0x11#8, 0xD1#8, 0xD0#8, 0x10#8, 0xF0#8, 0x30#8, 0x31#8, 0xF1#8, 0x33#8, 0xF3#8, 0xF2#8, 0x32#8,
    0x36#8, 0xF6#8, 0xF7#8, 0x37#8, 0xF5#8, 0x35#8, 0x34#8, 0xF4#8, 0x3C#8, 0xFC#8, 0xFD#8, 0x3D#8,
    0xFF#8, 0x3F#8, 0x3E#8, 0xFE#8, 0xFA#8, 0x3A#8, 0x3B#8, 0xFB#8, 0x39#8, 0xF9#8, 0xF8#8, 0x38#8,
    0x28#8, 0xE8#8, 0xE9#8, 0x29#8, 0xEB#8, 0x2B#8, 0x2A#8, 0xEA#8, 0xEE#8, 0x2E#8, 0x2F#8, 0xEF#8,
    0x2D#8, 0xED#8, 0xEC#8, 0x2C#8, 0xE4#8, 0x24#8, 0x25#8, 0xE5#8, 0x27#8, 0xE7#8, 0xE6#8, 0x26#8,
    0x22#8, 0xE2#8, 0xE3#8, 0x23#8, 0xE1#8, 0x21#8, 0x20#8, 0xE0#8, 0xA0#8, 0x60#8, 0x61#8, 0xA1#8,
    0x63#8, 0xA3#8, 0xA2#8, 0x62#8, 0x66#8, 0xA6#8, 0xA7#8, 0x67#8, 0xA5#8, 0x65#8, 0x64#8, 0xA4#8,
    0x6C#8, 0xAC#8, 0xAD#8, 0x6D#8, 0xAF#8, 0x6F#8, 0x6E#8, 0xAE#8, 0xAA#8, 0x6A#8, 0x6B#8, 0xAB#8,
    0x69#8, 0xA9#8, 0xA8#8, 0x68#8, 0x78#8, 0xB8#8, 0xB9#8, 0x79#8, 0xBB#8, 0x7B#8, 0x7A#8, 0xBA#8,
    0xBE#8, 0x7E#8, 0x7F#8, 0xBF#8, 0x7D#8, 0xBD#8, 0xBC#8, 0x7C#8, 0xB4#8, 0x74#8, 0x75#8, 0xB5#8,
    0x77#8, 0xB7#8, 0xB6#8, 0x76#8, 0x72#8, 0xB2#8, 0xB3#8, 0x73#8, 0xB1#8, 0x71#8, 0x70#8, 0xB0#8,
    0x50#8, 0x90#8, 0x91#8, 0x51#8, 0x93#8, 0x53#8, 0x52#8, 0x92#8, 0x96#8, 0x56#8, 0x57#8, 0x97#8,
    0x55#8, 0x95#8, 0x94#8, 0x54#8, 0x9C#8, 0x5C#8, 0x5D#8, 0x9D#8, 0x5F#8, 0x9F#8, 0x9E#8, 0x5E#8,
    0x5A#8, 0x9A#8, 0x9B#8, 0x5B#8, 0x99#8, 0x59#8, 0x58#8, 0x98#8, 0x88#8, 0x48#8, 0x49#8, 0x89#8,
    0x4B#8, 0x8B#8, 0x8A#8, 0x4A#8, 0x4E#8, 0x8E#8, 0x8F#8, 0x4F#8, 0x8D#8, 0x4D#8, 0x4C#8, 0x8C#8,
    0x44#8, 0x84#8, 0x85#8, 0x45#8, 0x87#8, 0x47#8, 0x46#8, 0x86#8, 0x82#8, 0x42#8, 0x43#8, 0x83#8,
    0x41#8, 0x81#8, 0x80#8, 0x40#8]

/-- `crc_hi` and `crc_lo`. -/
structure Crc16 where
  hi : BitVec 8
  lo : BitVec 8

/-- One round of the loop. -/
def crc16Step (crc : Crc16) (b : BitVec 8) : Crc16 :=
  let index := crc.lo ^^^ b
  { lo := crc.hi ^^^ arrCrcHi.getD index.toNat 0#8
    hi := arrCrcLo.getD index.toNat 0#8 }

/-- `crc_hi << 8 | crc_lo`. -/
def Crc16.value (crc : Crc16) : BitVec 16 := (crc.hi.setWidth 16 <<< 8) ||| crc.lo.setWidth 16

/-- `CRC16(pframe, len)`; `pframe` holds at least `len` bytes. -/
def crc16 (pframe : List (BitVec 8)) (len : BitVec 16) : BitVec 16 :=
  ((pframe.take len.toNat).foldl crc16Step ⟨0xFF#8, 0xFF#8⟩).value

def crc16Poly : BitVec 16 := 0xA001#16

/-- The definition: the reflected CRC of the message bits, from `0xFFFF`, not complemented. -/
def crc16Spec (pframe : List (BitVec 8)) : BitVec 16 :=
  crcBits crc16Poly 0xFFFF#16 (messageBits pframe)

/-- The two tables hold the bytes of the register after eight bit steps, the table called high the
low byte. -/
theorem arrCrcHi_eq : arrCrcHi = (byteTable crc16Poly).map lowByte := by decide +kernel

theorem arrCrcLo_eq :
    arrCrcLo = (byteTable crc16Poly).map fun x : BitVec 16 => lowByte (x >>> 8) := by
  decide +kernel

theorem crc16Poly_top : crc16Poly.getLsbD (16-1) = true := by decide

theorem getLsbD_value (c : Crc16) (i : ℕ) :
    c.value.getLsbD i = if i < 8 then c.lo.getLsbD i else c.hi.getLsbD (i-8) := by
  rw [Crc16.value, BitVec.getLsbD_or, BitVec.getLsbD_shiftLeft, BitVec.getLsbD_setWidth,
    BitVec.getLsbD_setWidth]
  by_cases hi : i < 8
  · have hi' : i < 16 := by omega
    simp [hi, hi']
  · by_cases hi' : i < 16
    · have hsub : i-8 < 16 := by omega
      simp [hi, hi', hsub, BitVec.getLsbD_of_ge c.lo i (by omega)]
    · simp [hi, hi', BitVec.getLsbD_of_ge c.hi (i-8) (by omega)]

theorem lowByte_value (c : Crc16) : lowByte c.value = c.lo := by
  apply BitVec.eq_of_getLsbD_eq
  intro i hi
  rw [lowByte, BitVec.getLsbD_setWidth, getLsbD_value, if_pos hi, decide_eq_true hi, Bool.true_and]

theorem value_shift (c : Crc16) : c.value >>> 8 = c.hi.setWidth 16 := by
  apply BitVec.eq_of_getLsbD_eq
  intro i hi
  rw [BitVec.getLsbD_ushiftRight, getLsbD_value, if_neg (by omega), Nat.add_sub_cancel_left,
    BitVec.getLsbD_setWidth, decide_eq_true hi, Bool.true_and]

theorem value_xor_lo (hi lo b : BitVec 8) :
    (Crc16.mk hi (lo ^^^ b)).value = (Crc16.mk hi lo).value ^^^ b.setWidth 16 := by
  apply BitVec.eq_of_getLsbD_eq
  intro i hlt
  rw [BitVec.getLsbD_xor, getLsbD_value, getLsbD_value, BitVec.getLsbD_setWidth,
    decide_eq_true hlt, Bool.true_and]
  by_cases hi : i < 8
  · rw [if_pos hi, if_pos hi, BitVec.getLsbD_xor]
  · rw [if_neg hi, if_neg hi, BitVec.getLsbD_of_ge b i (by omega), Bool.xor_false]

theorem value_bytes (x : BitVec 16) : (Crc16.mk (lowByte (x >>> 8)) (lowByte x)).value = x := by
  apply BitVec.eq_of_getLsbD_eq
  intro i hi
  rw [getLsbD_value, lowByte, lowByte]
  by_cases hi' : i < 8
  · rw [if_pos hi', BitVec.getLsbD_setWidth, decide_eq_true hi', Bool.true_and]
  · rw [if_neg hi', BitVec.getLsbD_setWidth, decide_eq_true (by omega), Bool.true_and,
      BitVec.getLsbD_ushiftRight, Nat.add_sub_cancel' (by omega)]

/-- One round of the loop is eight bit steps. -/
theorem crc16Step_value (c : Crc16) (b : BitVec 8) :
    (crc16Step c b).value = crcBits crc16Poly c.value (byteBits b) := by
  -- the byte meets the low half only
  have hmeet : c.value ^^^ b.setWidth 16 = (Crc16.mk c.hi (c.lo ^^^ b)).value :=
    (value_xor_lo c.hi c.lo b).symm
  set index := c.lo ^^^ b with hindex
  set entry := (byteTable crc16Poly).getD index.toNat 0#16 with hentry
  have hlo : arrCrcHi.getD index.toNat 0#8 = lowByte entry := by
    rw [arrCrcHi_eq]
    exact List.getD_map (byteTable crc16Poly) 0#16 lowByte
  have hhi : arrCrcLo.getD index.toNat 0#8 = lowByte (entry >>> 8) := by
    rw [arrCrcLo_eq]
    exact List.getD_map (byteTable crc16Poly) 0#16 fun x : BitVec 16 => lowByte (x >>> 8)
  calc (crc16Step c b).value
      = (Crc16.mk (lowByte (entry >>> 8)) (lowByte entry ^^^ c.hi)).value := by
        rw [← hlo, ← hhi, BitVec.xor_comm _ c.hi]
        rfl
    _ = entry ^^^ c.hi.setWidth 16 := by rw [value_xor_lo, value_bytes]
    _ = crcBits crc16Poly c.value (byteBits b) := by
        rw [crcBits_eq_byteTable (by decide), hmeet, lowByte_value, value_shift]

theorem foldl_crc16Step (data : List (BitVec 8)) (c : Crc16) :
    (data.foldl crc16Step c).value = crcBits crc16Poly c.value (messageBits data) := by
  induction data generalizing c with
  | nil => rfl
  | cons b data ih =>
    rw [List.foldl_cons, ih, crc16Step_value, ← crcBits_append]
    rfl

/-- The whole frame is read when its length is passed. -/
theorem crc16_eq_crcBits {frame : List (BitVec 8)} (hlen : frame.length ≤ 65535) :
    crc16 frame (BitVec.ofNat 16 frame.length) =
      crcBits crc16Poly (Crc16.mk 0xFF#8 0xFF#8).value (messageBits frame) := by
  have htake : (BitVec.ofNat 16 frame.length).toNat = frame.length :=
    (BitVec.toNat_ofNat _ _).trans (Nat.mod_eq_of_lt (by omega))
  rw [crc16, htake, List.take_length, foldl_crc16Step]

/-- `CRC16` computes the reflected CRC, for every frame whose length `len` can hold. -/
theorem crc16_eq_crc16Spec (frame : List (BitVec 8)) (hlen : frame.length ≤ 65535) :
    crc16 frame (BitVec.ofNat 16 frame.length) = crc16Spec frame := by
  have hinit : (Crc16.mk 0xFF#8 0xFF#8).value = 0xFFFF#16 := by decide
  rw [crc16_eq_crcBits hlen, hinit, crc16Spec]

theorem crc16_check : crc16 [0x31#8, 0x32#8, 0x33#8] 3#16 = 0x7A75#16 := by
  have heq := crc16_eq_crc16Spec [0x31#8, 0x32#8, 0x33#8] (by decide)
  rw [List.length_cons, List.length_cons, List.length_cons, List.length_nil] at heq
  rw [heq]
  decide +kernel

/-- A frame followed by the low and the high byte of a check. -/
def withCheck (frame : List (BitVec 8)) (check : BitVec 16) : List (BitVec 8) :=
  frame ++ [lowByte check, lowByte (check >>> 8)]

theorem loadBits_check (check : BitVec 16) :
    loadBits 16 (messageBits [lowByte check, lowByte (check >>> 8)]) = check := by
  apply BitVec.eq_of_getLsbD_eq
  intro i hi
  have hbits : messageBits [lowByte check, lowByte (check >>> 8)] =
      byteBits (lowByte check) ++ byteBits (lowByte (check >>> 8)) := by
    rw [messageBits, List.flatMap_cons, List.flatMap_cons, List.flatMap_nil, List.append_nil]
  rw [getLsbD_loadBits, decide_eq_true hi, Bool.true_and, hbits]
  by_cases hi' : i < 8
  · rw [List.getD_append _ _ _ _ (by rwa [byteBits_length]), getD_byteBits, lowByte,
      BitVec.getLsbD_setWidth, decide_eq_true hi', Bool.true_and]
  · rw [List.getD_append_right _ _ _ _ (by rw [byteBits_length]; omega), byteBits_length,
      getD_byteBits, lowByte, BitVec.getLsbD_setWidth, decide_eq_true (by omega), Bool.true_and,
      BitVec.getLsbD_ushiftRight, Nat.add_sub_cancel' (by omega)]

/-- The frame as it is sent, with its own check. -/
def checked (frame : List (BitVec 8)) : List (BitVec 8) :=
  withCheck frame (crc16 frame (BitVec.ofNat 16 frame.length))

theorem checked_length (frame : List (BitVec 8)) : (checked frame).length = frame.length+2 :=
  List.length_append

theorem crc16_checked {f : List (BitVec 8)} (hf : f.length ≤ 65533) :
    crc16 (checked f) (BitVec.ofNat 16 (checked f).length) = 0#16 := by
  have hlen : (checked f).length ≤ 65535 := by
    rw [checked_length]
    omega
  rw [crc16_eq_crcBits hlen, checked]
  set check := crc16 f (BitVec.ofNat 16 f.length) with hcheck
  have hbits : messageBits (withCheck f check) = messageBits f ++
      messageBits [lowByte check, lowByte (check >>> 8)] := List.flatMap_append
  rw [hbits, crcBits_append, ← crc16_eq_crcBits (by omega), ← hcheck]
  exact crcBits_own_bits (messageBits_length _).le (loadBits_check check)

/-- A frame with its check leaves zero, and no burst of up to 16 bits in it does. -/
theorem crc16_withCheck (f : List (BitVec 8)) (hf : f.length ≤ 65533) :
    crc16 (checked f) (BitVec.ofNat 16 (checked f).length) = 0#16 ∧
    ∀ received : List (BitVec 8), received.length = (checked f).length → received ≠ checked f →
      Burst 16 (messageBits received) (messageBits (checked f)) →
      crc16 received (BitVec.ofNat 16 received.length) ≠ 0#16 := by
  refine ⟨crc16_checked hf, fun received hlen hne hburst => ?_⟩
  have hchecked : (checked f).length ≤ 65535 := by
    rw [checked_length]
    omega
  rw [← crc16_checked hf, crc16_eq_crcBits (by omega), crc16_eq_crcBits hchecked]
  apply crcBits_ne_of_burst crc16Poly_top _ _ hburst
  · rw [messageBits_length, messageBits_length, hlen]
  · exact fun h => hne (messageBits_injective h)

/-- A frame with its check, and a burst across the frame and the check. -/
theorem crc16_burst_detected : crc16 [0x31#8, 0x7E#8, 0x94#8] 3#16 = 0#16 ∧
    crc16 [0x3E#8, 0x7F#8, 0x94#8] 3#16 ≠ 0#16 := by
  obtain ⟨hzero, hne⟩ := crc16_withCheck [0x31#8] (by decide)
  have hchecked : checked [0x31#8] = [0x31#8, 0x7E#8, 0x94#8] := by
    decide +kernel
  rw [hchecked] at hzero hne
  refine ⟨hzero, ?_⟩
  apply hne [0x3E#8, 0x7F#8, 0x94#8]
  · decide
  · decide +kernel
  · apply burst_of_lt _ 0 _
    · decide +kernel
    · decide +kernel

end LinuxPrograms.Crc
