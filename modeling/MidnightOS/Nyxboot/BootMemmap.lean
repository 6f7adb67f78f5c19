import MidnightOS.Nyxboot.ExitServices

/-! # The memory map for the kernel (`bootinfo.c`)

`bi_update_memmap` converts the map of the firmware into a buffer of the loader's
own, descriptor by descriptor, at different strides.  `biUpdateMemmap_spec` is
for a buffer that does not overlap the map.
-/

namespace MidnightOS.Nyxboot

open MidnightOS.Lib

/-! ## The source -/

/-- `bi_memtype` -/
inductive BiMemtype where
  | usable
  | reclaimable
  | reserved
  | unusable
  | acpiReclaimable
  | acpiNvs
  | mmio
  | mmioPortSpace
  | persistentMem
  | efiRtCode
  | efiRtData
  | unknown
deriving DecidableEq

def BiMemtype.value (type : BiMemtype) : UINT32 := BitVec.ofNat 32 type.ctorIdx

/-- The cases are the values of `EFI_MEMORY_TYPE`, from `EfiReservedMemoryType` on. -/
def memtypeEfiToBi (efiType : UINT32) : BiMemtype :=
  match efiType.toNat with
  | 0 => .reserved
  | 1 => .reclaimable
  | 2 => .reclaimable
  | 3 => .reclaimable
  | 4 => .reclaimable
  | 5 => .efiRtCode
  | 6 => .efiRtData
  | 7 => .usable
  | 8 => .unusable
  | 9 => .acpiReclaimable
  | 10 => .acpiNvs
  | 11 => .mmio
  | 12 => .mmioPortSpace
  | 13 => .reserved
  | 14 => .persistentMem
  | 15 => .unusable
  | _ => .unknown

/-- `bi_memdesc_t` -/
structure BiMemdesc where
  base : UINT64
  pageCount : UINT64
  type : UINT32
  flags : UINT32
deriving DecidableEq

def BiMemdesc.decode (m : Mem) (a : Nat) : BiMemdesc where
  base := loadLE m 8 a
  pageCount := loadLE m 8 (a + 8)
  type := loadLE m 4 (a + 16)
  flags := loadLE m 4 (a + 20)

/-- The map that `bi_build_memmap` makes, with its descriptors at `descriptors`. -/
def biBuildMemmap (descriptors : UINT64) : BiMemmap where
  version := 1
  descriptorSize := 24
  descriptorCount := 256
  bufferSize := 256 * 24 + 8192
  pDescriptors := descriptors

/-- Write a `uint32_t` to memory. -/
def storeUINT32 (addr : Nat) (w : UINT32) : HandoverM Unit :=
  modify fun s => { s.emit (.store addr 4) with mem := storeLE s.mem 4 addr w }

/-- The body of the loop of `bi_update_memmap`, for the descriptors at these addresses. -/
def biUpdateDesc (efiDesc biDesc : Nat) : HandoverM Unit := do
  let s ← get
  storeWord biDesc (loadLE s.mem 8 (efiDesc + 8))
  let s ← get
  storeWord (biDesc + 8) (loadLE s.mem 8 (efiDesc + 24))
  let s ← get
  storeUINT32 (biDesc + 16) (memtypeEfiToBi (loadLE s.mem 4 efiDesc)).value
  storeUINT32 (biDesc + 20) 0

def biUpdateMemmap : HandoverM Unit := do
  let s ← get
  let efiMap := s.vars.memMap
  let memmap := s.vars.bootMap
  returnIf (memmap.pDescriptors = 0) .invalidParameter
  let base := memmap.pDescriptors.toNat
  let limit := base + memmap.bufferSize.toNat
  faultIf (efiMap.descSize = 0)
  let inCount := efiMap.size / efiMap.descSize
  let outBytesNeeded := inCount * 24
  returnIf (base + outBytesNeeded.toNat > limit) .bufferTooSmall
  setVars fun vars => { vars with bootMap := { vars.bootMap with descriptorCount := inCount } }
  forUp (fun i => do
    returnIf (base + i * 24 + 24 > limit) .bufferTooSmall
    biUpdateDesc (efiMap.descs.toNat + i * efiMap.descSize.toNat) (base + i * 24)) 0 inCount.toNat

/-! ## One descriptor -/

/-- The descriptor for the kernel that stands for one of the firmware. -/
def EfiMemoryDescriptor.toBi (desc : EfiMemoryDescriptor) : BiMemdesc where
  base := desc.physicalStart
  pageCount := desc.numberOfPages
  type := (memtypeEfiToBi desc.type).value
  flags := 0

/-- The descriptor of the firmware at an address. -/
def EfiMemoryDescriptor.decode (m : Mem) (a : Nat) : EfiMemoryDescriptor where
  type := loadLE m 4 a
  physicalStart := loadLE m 8 (a + 8)
  numberOfPages := loadLE m 8 (a + 24)

theorem EfiMemoryDescriptor.decode_moved {m m' : Mem} {a a' : Nat}
    (h : ∀ i < 40, m (a + i) = m' (a' + i)) : decode m a = decode m' a' := by
  have word : ∀ n k, k + n ≤ 40 → loadLE m n (a + k) = loadLE m' n (a' + k) := by
    intro n k inside
    apply loadLE_moved
    intro i hi
    rw [Nat.add_assoc, Nat.add_assoc]
    exact h (k + i) (by omega)
  have first : loadLE m 4 a = loadLE m' 4 a' := word 4 0 (by omega)
  simp only [decode, first, word 8 8 (by omega), word 8 24 (by omega)]

theorem BiMemdesc.decode_congr {m m' : Mem} {a : Nat} (h : ∀ i < 24, m (a + i) = m' (a + i)) :
    decode m a = decode m' a := by
  have word : ∀ n k, k + n ≤ 24 → loadLE m n (a + k) = loadLE m' n (a + k) := by
    intro n k inside
    apply loadLE_congr
    intro i hi
    rw [Nat.add_assoc]
    exact h (k + i) (by omega)
  have first : loadLE m 8 a = loadLE m' 8 a := word 8 0 (by omega)
  simp only [decode, first, word 8 8 (by omega), word 4 16 (by omega), word 4 20 (by omega)]

section Update

variable {s : Machine HandoverVars} {E : Stop → Machine HandoverVars → Prop}

theorem wp_storeUINT32 {addr : Nat} {w : UINT32} {Q : PUnit → Machine HandoverVars → Prop} :
    wp (storeUINT32 addr w) Q E s ↔
      Q () { s.emit (.store addr 4) with mem := storeLE s.mem 4 addr w } := Iff.rfl

theorem biUpdateDesc_spec {efiDesc biDesc : Nat}
    (apart : efiDesc + 40 ≤ biDesc ∨ biDesc + 24 ≤ efiDesc) :
    wp (biUpdateDesc efiDesc biDesc)
      (fun _ s' => BiMemdesc.decode s'.mem biDesc = (EfiMemoryDescriptor.decode s.mem efiDesc).toBi ∧
        (∀ x, x < biDesc ∨ biDesc + 24 ≤ x → s'.mem x = s.mem x) ∧ s'.vars = s.vars)
      E s := by
  simp only [biUpdateDesc, wp_bind, wp_get, wp_storeWord, wp_storeUINT32]
  refine ⟨?_, fun x outside => ?_, rfl⟩
  · -- each field is read back from its own store, and read before it is overwritten
    simp (disch := omega) only [BiMemdesc.decode, EfiMemoryDescriptor.decode,
      EfiMemoryDescriptor.toBi, loadLE_storeLE_same, loadLE_storeLE_disjoint]
  · rw [storeLE_of_outside (by omega), storeLE_of_outside (by omega),
      storeLE_of_outside (by omega), storeLE_of_outside (by omega)]

/-! ## The whole map -/

/-- The map of the firmware that the variable describes. -/
def EfiMemmapVar.view (map : EfiMemmapVar) (m : Mem) : EfiMemmap where
  descs := fun i => m (map.descs.toNat + i)
  size := map.size
  descSize := map.descSize

theorem EfiMemmapVar.desc_view (map : EfiMemmapVar) (m : Mem) (i : Nat) :
    (map.view m).desc i =
      EfiMemoryDescriptor.decode m (map.descs.toNat + i * map.descSize.toNat) := by
  have word : ∀ n k, loadLE (fun j => m (map.descs.toNat + j)) n k =
      loadLE m n (map.descs.toNat + k) :=
    fun n k => loadLE_moved fun j _ => congrArg m (by omega)
  simp only [EfiMemmap.desc, EfiMemmapVar.view, EfiMemoryDescriptor.decode, word, Nat.add_assoc]

/-- The buffer of `bm` is the conversion of the memory map. -/
def BiMemmap.Converts (bm : BiMemmap) (m : Mem) (memMap : EfiMemmap) : Prop :=
  bm.descriptorCount.toNat = memMap.count ∧
    ∀ i < memMap.count, BiMemdesc.decode m (bm.pDescriptors.toNat + i * 24) = (memMap.desc i).toBi

/-- The buffer of `bm` has no byte in common with the `size` bytes from `a` on. -/
def BiMemmap.Apart (bm : BiMemmap) (a : UINT64) (size : Nat) : Prop :=
  a.toNat + size ≤ bm.pDescriptors.toNat ∨ bm.pDescriptors.toNat + bm.bufferSize.toNat ≤ a.toNat

theorem EfiMemmapVar.count_mul_le (map : EfiMemmapVar) (m : Mem) :
    (map.view m).count * map.descSize.toNat ≤ map.size.toNat := by
  have count : (map.view m).count = map.size.toNat / map.descSize.toNat := BitVec.toNat_udiv
  rw [count]
  exact Nat.div_mul_le_self _ _

/-- At a stride of at least 40 bytes, the size of the output does not wrap. -/
theorem EfiMemmapVar.outBytes_toNat (map : EfiMemmapVar) (m : Mem)
    (stride : 40 ≤ map.descSize.toNat) :
    (map.size / map.descSize * 24).toNat = (map.view m).count * 24 := by
  have few : (map.view m).count * 40 ≤ map.size.toNat :=
    Nat.le_trans (Nat.mul_le_mul_left _ stride) (map.count_mul_le m)
  have bound := map.size.isLt
  have count : (map.size / map.descSize).toNat = (map.view m).count := rfl
  rw [BitVec.toNat_mul, count, show (24 : UINTN).toNat = 24 from rfl]
  omega

/-- The loop, for descriptors from `descs` on that lie before or after the buffer. -/
theorem biUpdateLoop_spec {descs base limit stride count : Nat} (hstride : 40 ≤ stride)
    (apart : descs + count * stride ≤ base ∨ limit ≤ descs) (room : base + count * 24 ≤ limit) :
    wp (forUp (fun i => do
      returnIf (base + i * 24 + 24 > limit) .bufferTooSmall
      biUpdateDesc (descs + i * stride) (base + i * 24)) 0 count)
      (fun _ s' => (∀ i < count, BiMemdesc.decode s'.mem (base + i * 24) =
          (EfiMemoryDescriptor.decode s.mem (descs + i * stride)).toBi) ∧
        (∀ x, x < base ∨ base + count * 24 ≤ x → s'.mem x = s.mem x) ∧ s'.vars = s.vars) E s := by
  have loop := wp_forUp (E := E) (i := 0) (n := count) (s := s) (f := fun i => do
      returnIf (base + i * 24 + 24 > limit) .bufferTooSmall
      biUpdateDesc (descs + i * stride) (base + i * 24))
    (I := fun k t => (∀ i < k, BiMemdesc.decode t.mem (base + i * 24) =
        (EfiMemoryDescriptor.decode s.mem (descs + i * stride)).toBi) ∧
      (∀ x, x < base ∨ base + k * 24 ≤ x → t.mem x = s.mem x) ∧ t.vars = s.vars) ?_
    ⟨by simp, fun _ _ => rfl, rfl⟩
  · simpa using loop
  · rintro k t - below ⟨done, frame, vars⟩
    rw [Nat.zero_add] at below
    have here : k * stride + 40 ≤ count * stride := by
      calc k * stride + 40 ≤ k * stride + stride := Nat.add_le_add_left hstride _
        _ = (k + 1) * stride := (Nat.succ_mul k stride).symm
        _ ≤ count * stride := Nat.mul_le_mul_right _ below
    simp only [wp_bind, wp_returnIf]
    refine ⟨fun large => by omega, fun _ => ?_⟩
    refine wp_mono (biUpdateDesc_spec (by omega)) ?_ (fun _ _ h => h)
    rintro _ u ⟨written, frame', vars'⟩
    refine ⟨fun i hi => ?_, fun x hx => ?_, vars'.trans vars⟩
    · by_cases last : i = k
      · subst last
        rw [written]
        -- the descriptor has not been written to
        refine congrArg _ (EfiMemoryDescriptor.decode_moved fun j hj => frame _ ?_)
        omega
      · rw [← done i (by omega)]
        exact BiMemdesc.decode_congr fun j hj => frame' _ (by omega)
    · rw [frame' x (by omega), frame x (by omega)]

/-- `bi_update_memmap` converts the map if the buffer has room for it, and else
    changes nothing. -/
theorem biUpdateMemmap_spec (nonnull : s.vars.bootMap.pDescriptors ≠ 0)
    (stride : 40 ≤ s.vars.memMap.descSize.toNat)
    (apart : s.vars.bootMap.Apart s.vars.memMap.descs s.vars.memMap.size.toNat) :
    wp biUpdateMemmap
      (fun _ s' => (s.vars.memMap.view s.mem).count * 24 ≤ s.vars.bootMap.bufferSize.toNat ∧
        s'.vars.bootMap.Converts s'.mem (s.vars.memMap.view s.mem) ∧
        (∀ x, x < s.vars.bootMap.pDescriptors.toNat ∨
          s.vars.bootMap.pDescriptors.toNat + (s.vars.memMap.view s.mem).count * 24 ≤ x →
          s'.mem x = s.mem x) ∧
        s'.vars = { s.vars with bootMap := { s.vars.bootMap with
          descriptorCount := s.vars.memMap.size / s.vars.memMap.descSize } })
      (fun stop s' => stop = .efi .bufferTooSmall ∧ s' = s ∧
        s.vars.bootMap.bufferSize.toNat < (s.vars.memMap.view s.mem).count * 24) s := by
  -- the size may end inside a descriptor, which is not counted
  have inside := s.vars.memMap.count_mul_le s.mem
  have nonzero : s.vars.memMap.descSize ≠ 0 := by
    intro zero
    rw [zero] at stride
    exact absurd stride (by decide)
  simp only [biUpdateMemmap, wp_bind, wp_get, wp_returnIf, wp_faultIf, wp_setVars,
    s.vars.memMap.outBytes_toNat s.mem stride]
  refine ⟨fun null => absurd null nonnull, fun _ => ⟨fun zero => absurd zero nonzero, fun _ =>
    ⟨fun large => ⟨trivial, trivial, by omega⟩, fun fits => ?_⟩⟩⟩
  refine wp_mono (biUpdateLoop_spec stride ?_ ?_) ?_ (fun _ _ h => h)
  · -- what is read lies apart from all that is written
    rw [BiMemmap.Apart] at apart
    change _ + (s.vars.memMap.view s.mem).count * _ ≤ _ ∨ _
    omega
  · change _ + (s.vars.memMap.view s.mem).count * 24 ≤ _
    omega
  · rintro _ s' ⟨written, frame, vars⟩
    refine ⟨by omega, ⟨?_, fun i hi => ?_⟩, frame, vars⟩
    · rw [vars]
      rfl
    · rw [vars, EfiMemmapVar.desc_view]
      exact written i hi

end Update

/-! ## All or nothing -/

/-- What `bi_update_memmap` may take for granted: a stride at which descriptors do not overlap,
a buffer apart from the map, and limits that stay in the address space. -/
structure Convertible (map : EfiMemmapVar) (bm : BiMemmap) : Prop where
  nonnull : bm.pDescriptors ≠ 0
  stride : 40 ≤ map.descSize.toNat
  apart : bm.Apart map.descs map.size.toNat
  bufferEnd : bm.pDescriptors.toNat + bm.bufferSize.toNat < 2 ^ 64
  outputEnd : bm.pDescriptors.toNat + (map.size / map.descSize).toNat * 24 < 2 ^ 64

/-- The map of `s` is converted in `s'`, and nothing else is different there. -/
structure Converted (s s' : Machine HandoverVars) : Prop where
  descs : ∀ i < (s.vars.memMap.size / s.vars.memMap.descSize).toNat,
    BiMemdesc.decode s'.mem (s.vars.bootMap.pDescriptors.toNat + i * 24) =
      (EfiMemoryDescriptor.decode s.mem
        (s.vars.memMap.descs.toNat + i * s.vars.memMap.descSize.toNat)).toBi
  mem : ∀ x, x < s.vars.bootMap.pDescriptors.toNat ∨ s.vars.bootMap.pDescriptors.toNat +
      (s.vars.memMap.size / s.vars.memMap.descSize).toNat * 24 ≤ x → s'.mem x = s.mem x
  vars : s'.vars = { s.vars with bootMap := { s.vars.bootMap with
    descriptorCount := s.vars.memMap.size / s.vars.memMap.descSize } }

/-- `bi_update_memmap` without the test in its loop. -/
def biUpdateMemmapTestedOnce : HandoverM Unit := do
  let s ← get
  let efiMap := s.vars.memMap
  let memmap := s.vars.bootMap
  returnIf (memmap.pDescriptors = 0) .invalidParameter
  let base := memmap.pDescriptors.toNat
  let limit := base + memmap.bufferSize.toNat
  faultIf (efiMap.descSize = 0)
  let inCount := efiMap.size / efiMap.descSize
  let outBytesNeeded := inCount * 24
  returnIf (base + outBytesNeeded.toNat > limit) .bufferTooSmall
  setVars fun vars => { vars with bootMap := { vars.bootMap with descriptorCount := inCount } }
  forUp (fun i => biUpdateDesc (efiMap.descs.toNat + i * efiMap.descSize.toNat) (base + i * 24))
    0 inCount.toNat

section Lossless

variable {s : Machine HandoverVars}

theorem returnIf_false {σ : Type} {c : Prop} [Decidable c] {e : EfiError} (h : ¬c) :
    (returnIf c e : Efi σ Unit) = pure () := if_neg h

/-- The test before the loop implies the test in each round. -/
theorem biUpdateLoop_tested_once {base limit descs stride count : Nat}
    (room : base + count * 24 ≤ limit) :
    forUp (fun i => do
      returnIf (base + i * 24 + 24 > limit) .bufferTooSmall
      biUpdateDesc (descs + i * stride) (base + i * 24)) 0 count =
    forUp (fun i => biUpdateDesc (descs + i * stride) (base + i * 24)) 0 count := by
  apply forUp_congr
  intro i _ below
  have inside : ¬base + i * 24 + 24 > limit := by omega
  rw [returnIf_false inside, pure_bind]

theorem returnIf_bind_congr {c : Prop} [Decidable c] {e : EfiError} {f g : Unit → HandoverM Unit}
    (h : ¬c → f () s = g () s) : (returnIf c e >>= f) s = (returnIf c e >>= g) s := by
  by_cases hc : c
  · simp only [returnIf, if_pos hc]
    rfl
  · rw [returnIf_false hc]
    exact h hc

theorem faultIf_bind_congr {c : Prop} [Decidable c] {f g : Unit → HandoverM Unit}
    (h : ¬c → f () s = g () s) : (faultIf c >>= f) s = (faultIf c >>= g) s := by
  by_cases hc : c
  · simp only [faultIf, if_pos hc]
    rfl
  · simp only [faultIf, if_neg hc]
    exact h hc

theorem biUpdateMemmap_tested_once (stride : 40 ≤ s.vars.memMap.descSize.toNat) :
    biUpdateMemmap s = biUpdateMemmapTestedOnce s := by
  rw [biUpdateMemmap, biUpdateMemmapTestedOnce, get_bind, get_bind]
  apply returnIf_bind_congr
  intro _
  apply faultIf_bind_congr
  intro _
  apply returnIf_bind_congr
  intro fits
  rw [s.vars.memMap.outBytes_toNat s.mem stride] at fits
  have room : s.vars.bootMap.pDescriptors.toNat +
      (s.vars.memMap.size / s.vars.memMap.descSize).toNat * 24 ≤
        s.vars.bootMap.pDescriptors.toNat + s.vars.bootMap.bufferSize.toNat :=
    Nat.le_of_not_lt fits
  simp only [biUpdateLoop_tested_once room]

theorem biUpdateMemmap_lossless (args : Convertible s.vars.memMap s.vars.bootMap) :
    ((∃ s', biUpdateMemmap s = .ok () s') ↔
        (s.vars.memMap.size / s.vars.memMap.descSize).toNat * 24 ≤
          s.vars.bootMap.bufferSize.toNat) ∧
      (∀ s', biUpdateMemmap s = .ok () s' → Converted s s') ∧
      (∀ stop s', biUpdateMemmap s = .error stop s' → stop = .efi .bufferTooSmall ∧ s' = s) ∧
      biUpdateMemmap s = biUpdateMemmapTestedOnce s := by
  have spec := biUpdateMemmap_spec args.nonnull args.stride args.apart
  refine ⟨⟨?_, ?_⟩, ?_, ?_, biUpdateMemmap_tested_once args.stride⟩
  · rintro ⟨s', run⟩
    exact (wp_ok spec run).1
  · intro fits
    cases run : biUpdateMemmap s with
    | ok _ s' => exact ⟨s', rfl⟩
    | error stop s' =>
      obtain ⟨-, -, small⟩ := wp_error spec run
      exact absurd fits (Nat.not_le_of_lt small)
  · intro s' run
    obtain ⟨-, converts, frame, vars⟩ := wp_ok spec run
    refine ⟨fun i hi => ?_, frame, vars⟩
    have desc := converts.2 i hi
    rw [vars, EfiMemmapVar.desc_view] at desc
    exact desc
  · intro stop s' run
    obtain ⟨small, same, -⟩ := wp_error spec run
    exact ⟨small, same⟩

end Lossless

/-- A map of 100 bytes, which is two descriptors of 48 and a rest, and a buffer for two. -/
def twoDescriptorsMachine : Machine HandoverVars :=
  ⟨fun a => BitVec.ofNat 8 a, [], ⟨[], ⟨0x1000, 100, 0, 48⟩, 0, ⟨1, 48, 24, 0, 0x2000⟩⟩⟩

theorem biUpdateMemmap_lossless_two_descriptors :
    Convertible twoDescriptorsMachine.vars.memMap twoDescriptorsMachine.vars.bootMap ∧
      ∃ s', biUpdateMemmap twoDescriptorsMachine = .ok () s' ∧
        Converted twoDescriptorsMachine s' := by
  have args : Convertible twoDescriptorsMachine.vars.memMap twoDescriptorsMachine.vars.bootMap :=
    ⟨by decide, by decide, .inl (by decide), by decide, by decide⟩
  obtain ⟨succeeds, converts, -⟩ := biUpdateMemmap_lossless args
  obtain ⟨s', run⟩ := succeeds.mpr (by decide)
  exact ⟨args, s', run, converts s' run⟩

end MidnightOS.Nyxboot
