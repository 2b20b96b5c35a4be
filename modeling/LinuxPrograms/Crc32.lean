import LinuxPrograms.LibCrc

/-! `CRC32` (crc32.c): the table-driven loop computes the reflected CRC bit by bit, it tells apart
messages that differ in a burst of up to 32 bits, and a message may be given to it in pieces. -/
namespace LinuxPrograms.Crc
open Lib

/-- `Crc32Tab`. -/
def crc32Tab : List (BitVec 32) :=
  [0x00000000#32, 0x77073096#32, 0xEE0E612C#32, 0x990951BA#32, 0x076DC419#32, 0x706AF48F#32,
    0xE963A535#32, 0x9E6495A3#32, 0x0EDB8832#32, 0x79DCB8A4#32, 0xE0D5E91E#32, 0x97D2D988#32,
    0x09B64C2B#32, 0x7EB17CBD#32, 0xE7B82D07#32, 0x90BF1D91#32, 0x1DB71064#32, 0x6AB020F2#32,
    0xF3B97148#32, 0x84BE41DE#32, 0x1ADAD47D#32, 0x6DDDE4EB#32, 0xF4D4B551#32, 0x83D385C7#32,
    0x136C9856#32, 0x646BA8C0#32, 0xFD62F97A#32, 0x8A65C9EC#32, 0x14015C4F#32, 0x63066CD9#32,
    0xFA0F3D63#32, 0x8D080DF5#32, 0x3B6E20C8#32, 0x4C69105E#32, 0xD56041E4#32, 0xA2677172#32,
    0x3C03E4D1#32, 0x4B04D447#32, 0xD20D85FD#32, 0xA50AB56B#32, 0x35B5A8FA#32, 0x42B2986C#32,
    0xDBBBC9D6#32, 0xACBCF940#32, 0x32D86CE3#32, 0x45DF5C75#32, 0xDCD60DCF#32, 0xABD13D59#32,
    0x26D930AC#32, 0x51DE003A#32, 0xC8D75180#32, 0xBFD06116#32, 0x21B4F4B5#32, 0x56B3C423#32,
    0xCFBA9599#32, 0xB8BDA50F#32, 0x2802B89E#32, 0x5F058808#32, 0xC60CD9B2#32, 0xB10BE924#32,
    0x2F6F7C87#32, 0x58684C11#32, 0xC1611DAB#32, 0xB6662D3D#32, 0x76DC4190#32, 0x01DB7106#32,
    0x98D220BC#32, 0xEFD5102A#32, 0x71B18589#32, 0x06B6B51F#32, 0x9FBFE4A5#32, 0xE8B8D433#32,
    0x7807C9A2#32, 0x0F00F934#32, 0x9609A88E#32, 0xE10E9818#32, 0x7F6A0DBB#32, 0x086D3D2D#32,
    0x91646C97#32, 0xE6635C01#32, 0x6B6B51F4#32, 0x1C6C6162#32, 0x856530D8#32, 0xF262004E#32,
    0x6C0695ED#32, 0x1B01A57B#32, 0x8208F4C1#32, 0xF50FC457#32, 0x65B0D9C6#32, 0x12B7E950#32,
    0x8BBEB8EA#32, 0xFCB9887C#32, 0x62DD1DDF#32, 0x15DA2D49#32, 0x8CD37CF3#32, 0xFBD44C65#32,
    0x4DB26158#32, 0x3AB551CE#32, 0xA3BC0074#32, 0xD4BB30E2#32, 0x4ADFA541#32, 0x3DD895D7#32,
    0xA4D1C46D#32, 0xD3D6F4FB#32, 0x4369E96A#32, 0x346ED9FC#32, 0xAD678846#32, 0xDA60B8D0#32,
    0x44042D73#32, 0x33031DE5#32, 0xAA0A4C5F#32, 0xDD0D7CC9#32, 0x5005713C#32, 0x270241AA#32,
    0xBE0B1010#32, 0xC90C2086#32, 0x5768B525#32, 0x206F85B3#32, 0xB966D409#32, 0xCE61E49F#32,
    0x5EDEF90E#32, 0x29D9C998#32, 0xB0D09822#32, 0xC7D7A8B4#32, 0x59B33D17#32, 0x2EB40D81#32,
    0xB7BD5C3B#32, 0xC0BA6CAD#32, 0xEDB88320#32, 0x9ABFB3B6#32, 0x03B6E20C#32, 0x74B1D29A#32,
    0xEAD54739#32, 0x9DD277AF#32, 0x04DB2615#32, 0x73DC1683#32, 0xE3630B12#32, 0x94643B84#32,
    0x0D6D6A3E#32, 0x7A6A5AA8#32, 0xE40ECF0B#32, 0x9309FF9D#32, 0x0A00AE27#32, 0x7D079EB1#32,
    0xF00F9344#32, 0x8708A3D2#32, 0x1E01F268#32, 0x6906C2FE#32, 0xF762575D#32, 0x806567CB#32,
    0x196C3671#32, 0x6E6B06E7#32, 0xFED41B76#32, 0x89D32BE0#32, 0x10DA7A5A#32, 0x67DD4ACC#32,
    0xF9B9DF6F#32, 0x8EBEEFF9#32, 0x17B7BE43#32, 0x60B08ED5#32, 0xD6D6A3E8#32, 0xA1D1937E#32,
    0x38D8C2C4#32, 0x4FDFF252#32, 0xD1BB67F1#32, 0xA6BC5767#32, 0x3FB506DD#32, 0x48B2364B#32,
    0xD80D2BDA#32, 0xAF0A1B4C#32, 0x36034AF6#32, 0x41047A60#32, 0xDF60EFC3#32, 0xA867DF55#32,
    0x316E8EEF#32, 0x4669BE79#32, 0xCB61B38C#32, 0xBC66831A#32, 0x256FD2A0#32, 0x5268E236#32,
    0xCC0C7795#32, 0xBB0B4703#32, 0x220216B9#32, 0x5505262F#32, 0xC5BA3BBE#32, 0xB2BD0B28#32,
    0x2BB45A92#32, 0x5CB36A04#32, 0xC2D7FFA7#32, 0xB5D0CF31#32, 0x2CD99E8B#32, 0x5BDEAE1D#32,
    0x9B64C2B0#32, 0xEC63F226#32, 0x756AA39C#32, 0x026D930A#32, 0x9C0906A9#32, 0xEB0E363F#32,
    0x72076785#32, 0x05005713#32, 0x95BF4A82#32, 0xE2B87A14#32, 0x7BB12BAE#32, 0x0CB61B38#32,
    0x92D28E9B#32, 0xE5D5BE0D#32, 0x7CDCEFB7#32, 0x0BDBDF21#32, 0x86D3D2D4#32, 0xF1D4E242#32,
    0x68DDB3F8#32, 0x1FDA836E#32, 0x81BE16CD#32, 0xF6B9265B#32, 0x6FB077E1#32, 0x18B74777#32,
    0x88085AE6#32, 0xFF0F6A70#32, 0x66063BCA#32, 0x11010B5C#32, 0x8F659EFF#32, 0xF862AE69#32,
    0x616BFFD3#32, 0x166CCF45#32, 0xA00AE278#32, 0xD70DD2EE#32, 0x4E048354#32, 0x3903B3C2#32,
    0xA7672661#32, 0xD06016F7#32, 0x4969474D#32, 0x3E6E77DB#32, 0xAED16A4A#32, 0xD9D65ADC#32,
    0x40DF0B66#32, 0x37D83BF0#32, 0xA9BCAE53#32, 0xDEBB9EC5#32, 0x47B2CF7F#32, 0x30B5FFE9#32,
    0xBDBDF21C#32, 0xCABAC28A#32, 0x53B39330#32, 0x24B4A3A6#32, 0xBAD03605#32, 0xCDD70693#32,
    0x54DE5729#32, 0x23D967BF#32, 0xB3667A2E#32, 0xC4614AB8#32, 0x5D681B02#32, 0x2A6F2B94#32,
    0xB40BBE37#32, 0xC30C8EA1#32, 0x5A05DF1B#32, 0x2D02EF8D#32]

/-- One round of the loop. -/
def crc32Step (crc : BitVec 32) (b : BitVec 8) : BitVec 32 :=
  crc32Tab.getD ((crc ^^^ b.setWidth 32) &&& 0xFF#32).toNat 0#32 ^^^
    ((crc >>> 8) &&& 0x00FFFFFF#32)

/-- `CRC32(data, data_len, crc32)`; `data` holds at least `data_len` bytes, a signed number. -/
def crc32 (data : List (BitVec 8)) (dataLen crc : BitVec 32) : BitVec 32 :=
  (data.take dataLen.toInt.toNat).foldl crc32Step (crc ^^^ 0xFFFFFFFF#32) ^^^ 0xFFFFFFFF#32

def crc32Poly : BitVec 32 := 0xEDB88320#32

/-- The definition: the reflected CRC of the message bits, the initial value and the result
complemented. -/
def crc32Spec (data : List (BitVec 8)) (crc : BitVec 32) : BitVec 32 :=
  ~~~ crcBits crc32Poly (~~~ crc) (messageBits data)

/-- The table holds the registers after eight bit steps. -/
theorem crc32Tab_eq : crc32Tab = byteTable crc32Poly := by decide +kernel

theorem crc32Poly_top : crc32Poly.getLsbD (32-1) = true := by decide

theorem and_lowByte (x : BitVec 32) : (x &&& 0xFF#32).toNat = (lowByte x).toNat := by
  have hmask : ∀ i < 32, (0xFF#32).getLsbD i = decide (i < 8) := by decide
  have hwide : x &&& 0xFF#32 = (lowByte x).setWidth 32 := by
    apply BitVec.eq_of_getLsbD_eq
    intro i hi
    rw [BitVec.getLsbD_and, hmask i hi, lowByte, BitVec.getLsbD_setWidth, BitVec.getLsbD_setWidth,
      decide_eq_true hi, Bool.true_and, Bool.and_comm]
  rw [hwide, BitVec.toNat_setWidth_of_le (by decide)]

/-- The mask of the shift changes nothing, and the byte is below the bits that are kept. -/
theorem shift_masked (c : BitVec 32) (b : BitVec 8) :
    (c >>> 8) &&& 0x00FFFFFF#32 = (c ^^^ b.setWidth 32) >>> 8 := by
  have hmask : ∀ i < 32, (0x00FFFFFF#32).getLsbD i = decide (i < 24) := by decide
  apply BitVec.eq_of_getLsbD_eq
  intro i hi
  rw [BitVec.getLsbD_and, BitVec.getLsbD_ushiftRight, hmask i hi, BitVec.getLsbD_ushiftRight,
    BitVec.getLsbD_xor, BitVec.getLsbD_setWidth, BitVec.getLsbD_of_ge b _ (by omega),
    Bool.and_false, Bool.xor_false]
  by_cases hi' : i < 24
  · rw [decide_eq_true hi', Bool.and_true]
  · rw [BitVec.getLsbD_of_ge c _ (by omega), Bool.false_and]

/-- One round of the loop is eight bit steps. -/
theorem crc32Step_eq (c : BitVec 32) (b : BitVec 8) :
    crc32Step c b = crcBits crc32Poly c (byteBits b) := by
  rw [crc32Step, and_lowByte, shift_masked c b, crc32Tab_eq, crcBits_eq_byteTable (by decide)]

theorem foldl_crc32Step (data : List (BitVec 8)) (c : BitVec 32) :
    data.foldl crc32Step c = crcBits crc32Poly c (messageBits data) := by
  induction data generalizing c with
  | nil => rfl
  | cons b data ih =>
    rw [List.foldl_cons, ih, crc32Step_eq, ← crcBits_append]
    rfl

/-- The whole sequence is read when its length is passed. -/
theorem crc32_eq_foldl {data : List (BitVec 8)} (hlen : data.length < 2^31) (crc : BitVec 32) :
    crc32 data (BitVec.ofNat 32 data.length) crc = ~~~ data.foldl crc32Step (~~~ crc) := by
  have hnat : (BitVec.ofNat 32 data.length).toNat = data.length :=
    (BitVec.toNat_ofNat _ _).trans (Nat.mod_eq_of_lt (by omega))
  have hint : (BitVec.ofNat 32 data.length).toInt = data.length := by
    rw [BitVec.toInt_eq_toNat_of_lt (by rw [hnat]; omega), hnat]
  have hnot : ∀ x : BitVec 32, x ^^^ 0xFFFFFFFF#32 = ~~~ x := fun x => BitVec.xor_allOnes
  rw [crc32, hint, Int.toNat_natCast, List.take_length, hnot, hnot]

/-- `CRC32` computes the reflected CRC, for every sequence whose length `data_len` can hold. -/
theorem crc32_eq_crc32Spec (data : List (BitVec 8)) (crc : BitVec 32)
    (hlen : data.length < 2^31) :
    crc32 data (BitVec.ofNat 32 data.length) crc = crc32Spec data crc := by
  rw [crc32_eq_foldl hlen, foldl_crc32Step, crc32Spec]

theorem crc32_check : crc32 [0x31#8, 0x32#8, 0x33#8] 3#32 0#32 = 0x884863D2#32 := by
  have heq := crc32_eq_crc32Spec [0x31#8, 0x32#8, 0x33#8] 0#32 (by decide)
  rw [List.length_cons, List.length_cons, List.length_cons, List.length_nil] at heq
  rw [heq]
  decide +kernel

/-- A burst of up to 32 bits changes the check. -/
theorem crc32_ne_of_burst (r s : List (BitVec 8)) (crc : BitVec 32)
    (hlen : r.length = s.length) (hlt : r.length < 2^31) (hne : r ≠ s)
    (hburst : Burst 32 (messageBits r) (messageBits s)) :
    crc32 r (BitVec.ofNat 32 r.length) crc ≠ crc32 s (BitVec.ofNat 32 s.length) crc := by
  have hbitslen : (messageBits r).length = (messageBits s).length := by
    rw [messageBits_length, messageBits_length, hlen]
  have hbits : messageBits r ≠ messageBits s := fun h => hne (messageBits_injective h)
  rw [crc32_eq_foldl hlt, crc32_eq_foldl (by omega), foldl_crc32Step, foldl_crc32Step]
  intro heq
  exact crcBits_ne_of_burst crc32Poly_top hbitslen hbits hburst _ (BitVec.not_inj.mp heq)

/-- A burst across two bytes. -/
theorem crc32_burst_detected : crc32 [0x31#8, 0x32#8, 0x33#8] 3#32 7#32 ≠
    crc32 [0x31#8, 0x3D#8, 0x32#8] 3#32 7#32 := by
  apply crc32_ne_of_burst [0x31#8, 0x32#8, 0x33#8] [0x31#8, 0x3D#8, 0x32#8] 7#32
  · decide
  · decide
  · decide
  · exact burst_of_lt (by decide) 8 (by decide)

/-! In pieces. -/

/-- `CRC32` of the whole of `data`, from what the last call returned. -/
def feed (crc : BitVec 32) (data : List (BitVec 8)) : BitVec 32 :=
  crc32 data (BitVec.ofNat 32 data.length) crc

/-- The complement at the end of a call and that at the start of the next cancel. -/
theorem feed_feed {a b : List (BitVec 8)} (hlen : (a ++ b).length < 2^31) (crc : BitVec 32) :
    feed (feed crc a) b = feed crc (a ++ b) := by
  rw [List.length_append] at hlen
  have hlen' : (a ++ b).length < 2^31 := by rwa [List.length_append]
  calc feed (feed crc a) b
      = ~~~ b.foldl crc32Step (~~~ feed crc a) := crc32_eq_foldl (by omega) _
    _ = ~~~ b.foldl crc32Step (~~~ ~~~ a.foldl crc32Step (~~~ crc)) := by
        rw [feed, crc32_eq_foldl (by omega)]
    _ = ~~~ (a ++ b).foldl crc32Step (~~~ crc) := by rw [BitVec.not_not, List.foldl_append]
    _ = feed crc (a ++ b) := (crc32_eq_foldl hlen' _).symm

theorem feed_nil (crc : BitVec 32) : feed crc [] = crc :=
  (@crc32_eq_foldl [] (by decide) crc).trans BitVec.not_not

/-- Pieces given one after the other. -/
theorem foldl_feed {pieces : List (List (BitVec 8))} (hlen : pieces.flatten.length < 2^31)
    (crc : BitVec 32) : pieces.foldl feed crc = feed crc pieces.flatten := by
  induction pieces generalizing crc with
  | nil => exact (feed_nil crc).symm
  | cons piece pieces ih =>
    rw [List.flatten_cons] at hlen ⊢
    have hrest : pieces.flatten.length < 2^31 := by
      rw [List.length_append] at hlen
      omega
    rw [List.foldl_cons, ih hrest, feed_feed hlen]

/-- Two calls, one for each part of a message, return what one call for the message does, and so do
the calls for any pieces. -/
theorem crc32_in_pieces :
    (∀ (a b : List (BitVec 8)) (crc : BitVec 32), a.length+b.length < 2^31 →
      crc32 b (BitVec.ofNat 32 b.length) (crc32 a (BitVec.ofNat 32 a.length) crc) =
        crc32 (a ++ b) (BitVec.ofNat 32 (a.length+b.length)) crc) ∧
    ∀ (pieces : List (List (BitVec 8))) (crc : BitVec 32), pieces.flatten.length < 2^31 →
      pieces.foldl (fun crc piece => crc32 piece (BitVec.ofNat 32 piece.length) crc) crc =
        crc32 pieces.flatten (BitVec.ofNat 32 pieces.flatten.length) crc := by
  refine ⟨fun a b crc hlen => ?_, fun pieces crc hlen => foldl_feed hlen crc⟩
  rw [← List.length_append] at hlen ⊢
  exact feed_feed hlen crc

/-- Three bytes in two pieces. -/
theorem crc32_in_pieces_two :
    crc32 [0x33#8] 1#32 (crc32 [0x31#8, 0x32#8] 2#32 7#32) =
      crc32 [0x31#8, 0x32#8, 0x33#8] 3#32 7#32 :=
  crc32_in_pieces.1 [0x31#8, 0x32#8] [0x33#8] 7#32 (by decide)

end LinuxPrograms.Crc
