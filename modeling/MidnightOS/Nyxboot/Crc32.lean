import MidnightOS.Lib.ByteMemory
import MidnightOS.Lib.ShiftRegister
import MidnightOS.Nyxboot.Efi

/-! # The checksum of the configuration file (`crc32.c`)

The loader computes CRC-32 byte by byte from a table.  `crc32_eq_shift_register`
says that it is CRC-32, `crc32_ne_of_window` that it tells apart any two files that
differ in a window of four bytes.
-/

namespace MidnightOS.Nyxboot

open MidnightOS.Lib

/-! ## The source -/

/-- `crc32_table` -/
def crc32Table : List UINT32 := [
    0x00000000, 0x77073096, 0xEE0E612C, 0x990951BA, 0x076DC419, 0x706AF48F,
    0xE963A535, 0x9E6495A3, 0x0EDB8832, 0x79DCB8A4, 0xE0D5E91E, 0x97D2D988,
    0x09B64C2B, 0x7EB17CBD, 0xE7B82D07, 0x90BF1D91, 0x1DB71064, 0x6AB020F2,
    0xF3B97148, 0x84BE41DE, 0x1ADAD47D, 0x6DDDE4EB, 0xF4D4B551, 0x83D385C7,
    0x136C9856, 0x646BA8C0, 0xFD62F97A, 0x8A65C9EC, 0x14015C4F, 0x63066CD9,
    0xFA0F3D63, 0x8D080DF5, 0x3B6E20C8, 0x4C69105E, 0xD56041E4, 0xA2677172,
    0x3C03E4D1, 0x4B04D447, 0xD20D85FD, 0xA50AB56B, 0x35B5A8FA, 0x42B2986C,
    0xDBBBC9D6, 0xACBCF940, 0x32D86CE3, 0x45DF5C75, 0xDCD60DCF, 0xABD13D59,
    0x26D930AC, 0x51DE003A, 0xC8D75180, 0xBFD06116, 0x21B4F4B5, 0x56B3C423,
    0xCFBA9599, 0xB8BDA50F, 0x2802B89E, 0x5F058808, 0xC60CD9B2, 0xB10BE924,
    0x2F6F7C87, 0x58684C11, 0xC1611DAB, 0xB6662D3D, 0x76DC4190, 0x01DB7106,
    0x98D220BC, 0xEFD5102A, 0x71B18589, 0x06B6B51F, 0x9FBFE4A5, 0xE8B8D433,
    0x7807C9A2, 0x0F00F934, 0x9609A88E, 0xE10E9818, 0x7F6A0DBB, 0x086D3D2D,
    0x91646C97, 0xE6635C01, 0x6B6B51F4, 0x1C6C6162, 0x856530D8, 0xF262004E,
    0x6C0695ED, 0x1B01A57B, 0x8208F4C1, 0xF50FC457, 0x65B0D9C6, 0x12B7E950,
    0x8BBEB8EA, 0xFCB9887C, 0x62DD1DDF, 0x15DA2D49, 0x8CD37CF3, 0xFBD44C65,
    0x4DB26158, 0x3AB551CE, 0xA3BC0074, 0xD4BB30E2, 0x4ADFA541, 0x3DD895D7,
    0xA4D1C46D, 0xD3D6F4FB, 0x4369E96A, 0x346ED9FC, 0xAD678846, 0xDA60B8D0,
    0x44042D73, 0x33031DE5, 0xAA0A4C5F, 0xDD0D7CC9, 0x5005713C, 0x270241AA,
    0xBE0B1010, 0xC90C2086, 0x5768B525, 0x206F85B3, 0xB966D409, 0xCE61E49F,
    0x5EDEF90E, 0x29D9C998, 0xB0D09822, 0xC7D7A8B4, 0x59B33D17, 0x2EB40D81,
    0xB7BD5C3B, 0xC0BA6CAD, 0xEDB88320, 0x9ABFB3B6, 0x03B6E20C, 0x74B1D29A,
    0xEAD54739, 0x9DD277AF, 0x04DB2615, 0x73DC1683, 0xE3630B12, 0x94643B84,
    0x0D6D6A3E, 0x7A6A5AA8, 0xE40ECF0B, 0x9309FF9D, 0x0A00AE27, 0x7D079EB1,
    0xF00F9344, 0x8708A3D2, 0x1E01F268, 0x6906C2FE, 0xF762575D, 0x806567CB,
    0x196C3671, 0x6E6B06E7, 0xFED41B76, 0x89D32BE0, 0x10DA7A5A, 0x67DD4ACC,
    0xF9B9DF6F, 0x8EBEEFF9, 0x17B7BE43, 0x60B08ED5, 0xD6D6A3E8, 0xA1D1937E,
    0x38D8C2C4, 0x4FDFF252, 0xD1BB67F1, 0xA6BC5767, 0x3FB506DD, 0x48B2364B,
    0xD80D2BDA, 0xAF0A1B4C, 0x36034AF6, 0x41047A60, 0xDF60EFC3, 0xA867DF55,
    0x316E8EEF, 0x4669BE79, 0xCB61B38C, 0xBC66831A, 0x256FD2A0, 0x5268E236,
    0xCC0C7795, 0xBB0B4703, 0x220216B9, 0x5505262F, 0xC5BA3BBE, 0xB2BD0B28,
    0x2BB45A92, 0x5CB36A04, 0xC2D7FFA7, 0xB5D0CF31, 0x2CD99E8B, 0x5BDEAE1D,
    0x9B64C2B0, 0xEC63F226, 0x756AA39C, 0x026D930A, 0x9C0906A9, 0xEB0E363F,
    0x72076785, 0x05005713, 0x95BF4A82, 0xE2B87A14, 0x7BB12BAE, 0x0CB61B38,
    0x92D28E9B, 0xE5D5BE0D, 0x7CDCEFB7, 0x0BDBDF21, 0x86D3D2D4, 0xF1D4E242,
    0x68DDB3F8, 0x1FDA836E, 0x81BE16CD, 0xF6B9265B, 0x6FB077E1, 0x18B74777,
    0x88085AE6, 0xFF0F6A70, 0x66063BCA, 0x11010B5C, 0x8F659EFF, 0xF862AE69,
    0x616BFFD3, 0x166CCF45, 0xA00AE278, 0xD70DD2EE, 0x4E048354, 0x3903B3C2,
    0xA7672661, 0xD06016F7, 0x4969474D, 0x3E6E77DB, 0xAED16A4A, 0xD9D65ADC,
    0x40DF0B66, 0x37D83BF0, 0xA9BCAE53, 0xDEBB9EC5, 0x47B2CF7F, 0x30B5FFE9,
    0xBDBDF21C, 0xCABAC28A, 0x53B39330, 0x24B4A3A6, 0xBAD03605, 0xCDD70693,
    0x54DE5729, 0x23D967BF, 0xB3667A2E, 0xC4614AB8, 0x5D681B02, 0x2A6F2B94,
    0xB40BBE37, 0xC30C8EA1, 0x5A05DF1B, 0x2D02EF8D]

/-- One round of the loop. -/
def crc32Round (crc : UINT32) (byte : UINT8) : UINT32 :=
  (crc >>> 8) ^^^ crc32Table.getD ((crc ^^^ byte.setWidth 32) &&& 0xFF).toNat 0

/-- `crc32`, with the `length` bytes at `data` for the pointer to them. -/
def crc32 (data : List UINT8) (init : UINT32) : UINT32 := ~~~ data.foldl crc32Round init

/-! ## The shift register -/

def crc32Polynomial : UINT32 := 0xEDB88320

/-- The bits of some bytes, each byte from its least significant bit. -/
def bitsOf (data : List UINT8) : List Bool := data.flatMap (lowBits 8)

/-- CRC-32 as the tools that write `boot.cfg` compute it: the register starts with
    all ones, and its complement is the checksum. -/
def standardCrc32 (data : List UINT8) : UINT32 :=
  feed crc32Polynomial 0xFFFFFFFF (bitsOf data) ^^^ 0xFFFFFFFF

example : crc32 [0x31, 0x32, 0x33, 0x34, 0x35, 0x36, 0x37, 0x38, 0x39] 0xFFFFFFFF = 0xCBF43926 := by
  decide +kernel

theorem length_bitsOf (data : List UINT8) : (bitsOf data).length = 8 * data.length := by
  induction data with
  | nil => rfl
  | cons byte data ih =>
    rw [bitsOf, List.flatMap_cons, List.length_append, length_lowBits, List.length_cons, Nat.mul_succ,
      ← ih, Nat.add_comm]
    rfl

theorem bitsOf_append (data data' : List UINT8) : bitsOf (data ++ data') = bitsOf data ++ bitsOf data' :=
  List.flatMap_append

theorem bitsOf_injective {data data' : List UINT8} (h : bitsOf data = bitsOf data') : data = data' := by
  induction data generalizing data' with
  | nil =>
    have len := congrArg List.length h
    rw [length_bitsOf, length_bitsOf, List.length_nil] at len
    exact (List.eq_nil_of_length_eq_zero (by omega)).symm
  | cons byte data ih =>
    cases data' with
    | nil =>
      have len := congrArg List.length h
      rw [length_bitsOf, length_bitsOf, List.length_nil, List.length_cons] at len
      omega
    | cons byte' data' =>
      obtain ⟨head, tail⟩ := List.append_inj h (by simp)
      rw [ih tail]
      congr 1
      apply BitVec.eq_of_getLsbD_eq
      intro i hi
      have bit := congrArg (fun bits : List Bool => bits.getD i false) head
      simpa [lowBits, hi] using bit

/-- Every word of the table is what eight steps make of its index. -/
theorem crc32Table_eq (i : UINT8) :
    crc32Table.getD i.toNat 0 = feed crc32Polynomial 0 (lowBits 8 i) := by
  have all : (List.range 256).all fun i =>
      crc32Table.getD i 0 = feed crc32Polynomial 0 (lowBits 8 (BitVec.ofNat 8 i)) := by
    decide +kernel
  have entry := List.all_eq_true.mp all i.toNat (List.mem_range.mpr i.isLt)
  simpa using entry

/-- The index of the table: the bits that fall out, and those of the byte. -/
theorem crc32_index (crc : UINT32) (byte : UINT8) :
    ((crc ^^^ byte.setWidth 32) &&& 0xFF).toNat = (crc.setWidth 8 ^^^ byte).toNat := by
  have low : (crc ^^^ byte.setWidth 32) &&& 0xFF = (crc.setWidth 8 ^^^ byte).setWidth 32 := by
    apply BitVec.eq_of_getLsbD_eq
    intro i hi
    have mask : (0xFF : BitVec 32).getLsbD i = decide (i < 8) := by
      rw [BitVec.getLsbD, show (0xFF : BitVec 32).toNat = 2 ^ 8 - 1 from rfl,
        Nat.testBit_two_pow_sub_one]
    rw [BitVec.getLsbD_and, mask, BitVec.getLsbD_setWidth]
    by_cases h : i < 8
    · simp [h, hi]
    · simp [h, BitVec.getLsbD_of_ge _ i (by omega : 8 ≤ i)]
  rw [low, BitVec.toNat_setWidth]
  exact Nat.mod_eq_of_lt (Nat.lt_trans (BitVec.isLt _) (by decide))

/-- One round takes the bits of its byte. -/
theorem crc32Round_eq (crc : UINT32) (byte : UINT8) :
    crc32Round crc byte = feed crc32Polynomial crc (lowBits 8 byte) := by
  have bits : lowBits 8 (crc.setWidth 8 ^^^ byte) =
      List.zipWith Bool.xor (lowBits 8 crc) (lowBits 8 byte) := by
    rw [zipWith_lowBits]
    apply List.map_congr_left
    intro i hi
    have : i < 8 := List.mem_range.mp hi
    simp [this]
  rw [feed_eq_shift_xor, length_lowBits, ← bits, ← crc32Table_eq, ← crc32_index]
  rfl

theorem foldl_crc32Round (data : List UINT8) (crc : UINT32) :
    data.foldl crc32Round crc = feed crc32Polynomial crc (bitsOf data) := by
  induction data generalizing crc with
  | nil => rfl
  | cons byte data ih =>
    rw [List.foldl_cons, ih, crc32Round_eq, ← feed_append]
    rfl

/-- The table-driven checksum is CRC-32. -/
theorem crc32_eq_shift_register (data : List UINT8) :
    (∀ init, crc32 data init = ~~~ feed crc32Polynomial init (bitsOf data)) ∧
      crc32 data 0xFFFFFFFF = standardCrc32 data := by
  have register : ∀ init, crc32 data init = ~~~ feed crc32Polynomial init (bitsOf data) := by
    intro init
    rw [crc32, foldl_crc32Round]
  refine ⟨register, ?_⟩
  rw [register, standardCrc32]
  exact (BitVec.xor_allOnes).symm

/-- Two files that differ in a window of at most four bytes, and only there, have
    different checksums. -/
theorem crc32_ne_of_window {window window' : List UINT8} (before behind : List UINT8) (init : UINT32)
    (same : window.length = window'.length) (short : window.length ≤ 4) (differ : window ≠ window') :
    crc32 (before ++ window ++ behind) init ≠ crc32 (before ++ window' ++ behind) init := by
  intro h
  have registers := BitVec.not_inj.mp h
  simp only [foldl_crc32Round, bitsOf_append] at registers
  refine feed_ne_of_burst (by decide) init (bitsOf behind) ?_ ?_ ?_ registers
  · rw [length_bitsOf, length_bitsOf, same]
  · rw [length_bitsOf]
    omega
  · intro bits
    exact differ (bitsOf_injective bits)

end MidnightOS.Nyxboot
