import MidnightOS.Nyxboot.BootMemmap
import MidnightOS.Nyxboot.LoadCleanup

/-! # The boot information (`bootinfo.c`)

The structures that the kernel is given, as they are built in memory: five pool
buffers, of which the first leads to the others.  `AllocatePool` puts the addresses
of two of them into the first one.  Where a buffer cannot be obtained, those that
were obtained before are freed.
-/

namespace MidnightOS.Nyxboot

open MidnightOS.Lib

/-! ## The source -/

namespace Build

section Source

variable {σ : Type}

/-- Write a `uint32_t` to memory. -/
def storeDword (addr : Nat) (w : UINT32) : Efi σ Unit :=
  modify fun s => { s.emit (.store addr 4) with mem := storeLE s.mem 4 addr w }

/-- Write a `uint8_t` to memory. -/
def storeByte (addr : Nat) (w : UINT8) : Efi σ Unit :=
  modify fun s => { s.emit (.store addr 1) with mem := storeLE s.mem 1 addr w }

/-- `*pointer` -/
def deref (pointer : Nat) : Efi σ Nat := do
  let p ← loadWord pointer
  pure p.toNat

/-- `AllocatePool(EfiLoaderData, size, (void **) pointer)` -/
def allocatePoolTo (fw : Firmware) (size : UINTN) (pointer : Nat) : Efi σ Unit := do
  let buffer ← allocatePool fw size
  storeWord pointer buffer

/-- Free what the pointer leads to, and forget it. -/
def freeDeref {α : Type} (pointer : Nat) (e : EfiError) : Efi σ α := do
  freePool (← loadWord pointer)
  storeWord pointer 0
  throw (.efi e)

def biBuildMemmap (fw : Firmware) (memmap : Nat) : Efi σ Unit := do
  allocatePoolTo fw 40 memmap
  zeroMem (← deref memmap) 40
  storeDword (← deref memmap) 1
  storeWord ((← deref memmap) + 16) 24
  storeWord ((← deref memmap) + 24) 256
  let count ← loadWord ((← deref memmap) + 24)
  let size ← loadWord ((← deref memmap) + 16)
  storeWord ((← deref memmap) + 8) (count * size + 8192)
  let bufferSize ← loadWord ((← deref memmap) + 8)
  let descriptors ← onError (allocatePool fw bufferSize) (freeDeref memmap)
  let bufferSize ← loadWord ((← deref memmap) + 8)
  zeroMem descriptors.toNat bufferSize.toNat
  storeWord ((← deref memmap) + 32) descriptors

/-- The body of the loop of `bi_build_kernelmap`.  The array has no more elements than
`sectionInfos`. -/
def buildKernelmapDesc (elfMap : ElfLoadinfo) (descriptors i : Nat) : Efi σ Unit :=
  match elfMap.sectionInfos[i]? with
  | none => throw .fault
  | some sec => do
    storeWord (descriptors + i * 32) sec.phys
    storeWord (descriptors + i * 32 + 8) sec.reqVirt
    storeWord (descriptors + i * 32 + 16) sec.pageCount
    storeDword (descriptors + i * 32 + 24) 0

def biBuildKernelmap (fw : Firmware) (elfMap : ElfLoadinfo) (kernelMap : Nat) : Efi σ Unit := do
  allocatePoolTo fw 32 kernelMap
  zeroMem (← deref kernelMap) 32
  storeDword (← deref kernelMap) 1
  storeWord ((← deref kernelMap) + 8) 32
  storeWord ((← deref kernelMap) + 16) elfMap.sectionCount
  let size ← loadWord ((← deref kernelMap) + 8)
  let count ← loadWord ((← deref kernelMap) + 16)
  let totalBytes := size * count
  let descriptors ← onError (allocatePool fw totalBytes) (freeDeref kernelMap)
  zeroMem descriptors.toNat totalBytes.toNat
  forUp (buildKernelmapDesc elfMap descriptors.toNat) 0 elfMap.sectionCount.toNat
  storeWord ((← deref kernelMap) + 24) descriptors

/-- The code at the label `fail_bootinfo`. -/
def failBootinfo {α : Type} (bootInfo : UINT64) (e : EfiError) : Efi σ α := do
  freePool bootInfo
  throw (.efi e)

/-- The code at the label `fail_memmap`. -/
def failMemmap {α : Type} (bootInfo : UINT64) (e : EfiError) : Efi σ α := do
  let mm ← loadWord (bootInfo.toNat + 32)
  if mm ≠ 0 then do
    let descriptors ← loadWord (mm.toNat + 32)
    if descriptors ≠ 0 then freePool descriptors else pure ()
    freePool mm
  else pure ()
  failBootinfo bootInfo e

/-- Returns `*bootInfo`. -/
def biBuildBootinfo (fw : Firmware) (elfSections : ElfLoadinfo) : Efi σ UINT64 := do
  let bootInfo ← allocatePool fw 48
  let b := bootInfo.toNat
  zeroMem b 48
  storeDword (b + 4) 1
  storeDword b 0
  storeWord (b + 8) 0
  storeByte (b + 16) 0x4E
  storeByte (b + 17) 0x42
  storeByte (b + 18) 0x36
  storeByte (b + 19) 0x34
  storeWord (b + 24) 48
  storeDword (b + 20) 1
  onError (biBuildMemmap fw (b + 32)) (failBootinfo bootInfo)
  onError (biBuildKernelmap fw elfSections (b + 40)) (failMemmap bootInfo)
  return bootInfo

end Source

/-- `bi_update_memmap` of the map of the loader, with `*memmap` in memory. -/
def biUpdateMemmap (memmap : Nat) : HandoverM Unit := do
  let s ← get
  let efiMap := s.vars.memMap
  let descriptors ← loadWord (memmap + 32)
  returnIf (descriptors = 0) .invalidParameter
  let base := descriptors.toNat
  let bufferSize ← loadWord (memmap + 8)
  let limit := base + bufferSize.toNat
  faultIf (efiMap.descSize = 0)
  let inCount := efiMap.size / efiMap.descSize
  let outBytesNeeded := inCount * 24
  returnIf (base + outBytesNeeded.toNat > limit) .bufferTooSmall
  storeWord (memmap + 24) inCount
  forUp (fun i => do
    returnIf (base + i * 24 + 24 > limit) .bufferTooSmall
    biUpdateDesc (efiMap.descs.toNat + i * efiMap.descSize.toNat) (base + i * 24)) 0 inCount.toNat

end Build

/-! ## What is read of it -/

/-- `bi_bootinfo_t` -/
structure BiBootinfo where
  structureType : UINT32
  version : UINT32
  pNext : UINT64
  magic : List Byte
  flags : UINT32
  selfSize : UINT64
  pMemMap : UINT64
  pKernelMap : UINT64

def BiBootinfo.decode (m : Mem) (a : Nat) : BiBootinfo where
  structureType := loadLE m 4 a
  version := loadLE m 4 (a + 4)
  pNext := loadLE m 8 (a + 8)
  magic := slice m (a + 16) 4
  flags := loadLE m 4 (a + 20)
  selfSize := loadLE m 8 (a + 24)
  pMemMap := loadLE m 8 (a + 32)
  pKernelMap := loadLE m 8 (a + 40)

def BiMemmap.decode (m : Mem) (a : Nat) : BiMemmap where
  version := loadLE m 4 a
  bufferSize := loadLE m 8 (a + 8)
  descriptorSize := loadLE m 8 (a + 16)
  descriptorCount := loadLE m 8 (a + 24)
  pDescriptors := loadLE m 8 (a + 32)

/-- `bi_kernelmap_t` -/
structure BiKernelmap where
  version : UINT32
  descriptorSize : UINT64
  descriptorCount : UINT64
  pDescriptors : UINT64

def BiKernelmap.decode (m : Mem) (a : Nat) : BiKernelmap where
  version := loadLE m 4 a
  descriptorSize := loadLE m 8 (a + 8)
  descriptorCount := loadLE m 8 (a + 16)
  pDescriptors := loadLE m 8 (a + 24)

/-- `bi_kernelmapdesc_t` -/
structure BiKernelmapdesc where
  paddr : UINT64
  vaddr : UINT64
  pageCount : UINT64
  flags : UINT32

def BiKernelmapdesc.decode (m : Mem) (a : Nat) : BiKernelmapdesc where
  paddr := loadLE m 8 a
  vaddr := loadLE m 8 (a + 8)
  pageCount := loadLE m 8 (a + 16)
  flags := loadLE m 4 (a + 24)

/-- The boot information, with its memory map, the descriptors of that, its kernel map and the
descriptors of that. -/
structure BootBuffers where
  info : UINT64
  memMap : UINT64
  memDescs : UINT64
  kernelMap : UINT64
  kernelDescs : UINT64

/-- The buffers with their sizes, newest first. -/
def BootBuffers.list (b : BootBuffers) (elf : ElfLoadinfo) : List (UINT64 × Nat) :=
  [(b.kernelDescs, elf.sectionCount.toNat * 32), (b.kernelMap, 32), (b.memDescs, 14336),
    (b.memMap, 40), (b.info, 48)]

/-- The descriptor that stands for a section. -/
def ElfSectioninfo.toBi (sec : ElfSectioninfo) : BiKernelmapdesc where
  paddr := sec.phys
  vaddr := sec.reqVirt
  pageCount := sec.pageCount
  flags := 0

/-- The memory holds the boot information for the sections that were loaded. -/
structure BootBuffers.Hold (b : BootBuffers) (elf : ElfLoadinfo) (m : Mem) : Prop where
  info : BiBootinfo.decode m b.info.toNat =
    ⟨0, 1, 0, [0x4E, 0x42, 0x36, 0x34], 1, 48, b.memMap, b.kernelMap⟩
  memMap : BiMemmap.decode m b.memMap.toNat = biBuildMemmap b.memDescs
  kernelMap : BiKernelmap.decode m b.kernelMap.toNat = ⟨1, 32, elf.sectionCount, b.kernelDescs⟩
  sections : ∀ i (hi : i < elf.sectionInfos.length),
    BiKernelmapdesc.decode m (b.kernelDescs.toNat + i * 32) = elf.sectionInfos[i].toBi

/-! ## Buffers that a run obtains -/

/-- The bytes of a buffer. -/
def Inside (b : UINT64 × Nat) (x : Nat) : Prop := b.1.toNat ≤ x ∧ x < b.1.toNat + b.2

/-- From `h` to `h'` the pool buffers `bufs` are obtained, and nothing is freed. -/
structure Obtains (h h' : List Event) (bufs : List (UINT64 × Nat)) : Prop where
  holds : Holds h h' (bufs.map fun b => Resource.pool b.1)
  pages : ∀ x, PagesHeld h' x ↔ PagesHeld h x
  buffers : poolBuffers h' = bufs.map (fun b => (b.1.toNat, b.2)) ++ poolBuffers h
  nonnull : ∀ b ∈ bufs, b.1 ≠ 0
  below : ∀ b ∈ bufs, b.1.toNat + b.2 ≤ 2 ^ 52
  fresh : ∀ b ∈ bufs, ∀ x, Inside b x → ¬InUse h x
  disjoint : bufs.Pairwise fun b b' => ∀ x, Inside b x → ¬Inside b' x

section Obtains

variable {h h' h'' : List Event} {bufs bufs' : List (UINT64 × Nat)}

theorem Obtains.inUse (o : Obtains h h' bufs) (x : Nat) (used : InUse h x) : InUse h' x := by
  rcases used with pages | ⟨b, hb, inside⟩
  · exact .inl ((o.pages x).mpr pages)
  · refine .inr ⟨b, ?_, inside⟩
    rw [o.buffers]
    exact List.mem_append_right _ hb

theorem Obtains.used (o : Obtains h h' bufs) (b : UINT64 × Nat) (hb : b ∈ bufs) (x : Nat)
    (inside : Inside b x) : InUse h' x := by
  refine .inr ⟨(b.1.toNat, b.2), ?_, inside⟩
  rw [o.buffers]
  exact List.mem_append_left _ (List.mem_map.mpr ⟨b, hb, rfl⟩)

theorem Obtains.refl (h : List Event) : Obtains h h [] :=
  ⟨Holds.refl h, fun _ => Iff.rfl, rfl, by simp, by simp, by simp, .nil⟩

theorem Obtains.trans (first : Obtains h h' bufs) (then' : Obtains h' h'' bufs') :
    Obtains h h'' (bufs' ++ bufs) where
  holds := by
    have both := first.holds.trans then'.holds
    rwa [Multiset.coe_add, ← List.map_append, ← Multiset.coe_eq_coe.mpr
      (List.Perm.map _ List.perm_append_comm)] at both
  pages x := (then'.pages x).trans (first.pages x)
  buffers := by rw [then'.buffers, first.buffers, List.map_append, List.append_assoc]
  nonnull b hb := (List.mem_append.mp hb).elim (then'.nonnull b) (first.nonnull b)
  below b hb := (List.mem_append.mp hb).elim (then'.below b) (first.below b)
  fresh b hb x inside used := by
    rcases List.mem_append.mp hb with new | old
    · exact then'.fresh b new x inside (first.inUse x used)
    · exact first.fresh b old x inside used
  disjoint := List.pairwise_append.mpr ⟨then'.disjoint, first.disjoint,
    fun b hb b' hb' x inside inside' => then'.fresh b hb x inside (first.used b' hb' x inside')⟩

/-- An event that obtains and frees nothing. -/
theorem Obtains.skip (ev : Event) (hev : ev.entry = none)
    (pages : ∀ x, PagesHeld (ev :: h') x ↔ PagesHeld h' x)
    (buffers : poolBuffers (ev :: h') = poolBuffers h') (o : Obtains h h' bufs) :
    Obtains h (ev :: h') bufs where
  holds := o.holds.skip ev hev
  pages x := (pages x).trans (o.pages x)
  buffers := buffers.trans o.buffers
  nonnull := o.nonnull
  below := o.below
  fresh := o.fresh
  disjoint := o.disjoint

theorem Obtains.load (o : Obtains h h' bufs) (a n : Nat) : Obtains h (.load a n :: h') bufs :=
  o.skip _ rfl (fun _ => Iff.rfl) rfl

theorem Obtains.store (o : Obtains h h' bufs) (a n : Nat) : Obtains h (.store a n :: h') bufs :=
  o.skip _ rfl (fun _ => Iff.rfl) rfl

theorem Obtains.allocatePool {fw : Firmware} (pool : fw.SoundPool) {n : UINTN} {a : UINT64}
    (answer : fw.allocatePool h' n = .ok a) (o : Obtains h h' bufs) :
    Obtains h (.allocatePool n (.ok a) :: h') ((a, n.toNat) :: bufs) := by
  have here : Obtains h' (.allocatePool n (.ok a) :: h') [(a, n.toNat)] := by
    refine ⟨(Holds.refl h').obtain _ rfl, fun _ => Iff.rfl, rfl, ?_, ?_, ?_,
      List.pairwise_singleton _ _⟩
    · intro b hb
      obtain rfl := List.mem_singleton.mp hb
      exact pool.nonnull _ _ _ answer
    · intro b hb
      obtain rfl := List.mem_singleton.mp hb
      exact pool.below _ _ _ answer
    · intro b hb x inside
      obtain rfl := List.mem_singleton.mp hb
      exact pool.fresh _ _ _ answer x inside.1 inside.2
  exact o.trans here

end Obtains

/-- The error is one that the firmware returned for a buffer. -/
def Refusal (fw : Firmware) (stop : Stop) : Prop :=
  ∃ e h n, stop = .efi e ∧ fw.allocatePool h n = .error e

/-- Two ranges of which one is in use and the other is not. -/
theorem separated {P : Nat → Prop} {a n b k : Nat} (ha : ∀ x, a ≤ x → x < a + n → P x)
    (hb : ∀ x, b ≤ x → x < b + k → ¬P x) (hn : 0 < n) (hk : 0 < k) : a + n ≤ b ∨ b + k ≤ a := by
  by_contra overlap
  have low := ha (max a b) (by omega) (by omega)
  exact hb (max a b) (by omega) (by omega) low

/-! ## The functions -/

section Specs

open Build

variable {σ : Type} {fw : Firmware} {s : Machine σ} {E : Stop → Machine σ → Prop}

theorem wp_storeDword {addr : Nat} {w : UINT32} {Q : PUnit → Machine σ → Prop} :
    wp (storeDword addr w) Q E s ↔
      Q () { s.emit (.store addr 4) with mem := storeLE s.mem 4 addr w } := Iff.rfl

theorem wp_storeByte {addr : Nat} {w : UINT8} {Q : PUnit → Machine σ → Prop} :
    wp (storeByte addr w) Q E s ↔
      Q () { s.emit (.store addr 1) with mem := storeLE s.mem 1 addr w } := Iff.rfl

theorem wp_deref {pointer : Nat} {Q : Nat → Machine σ → Prop} :
    wp (deref pointer) Q E s ↔ Q (loadLE s.mem 8 pointer).toNat (s.emit (.load pointer 8)) := Iff.rfl

theorem wp_allocatePoolTo {size : UINTN} {pointer : Nat} {Q : PUnit → Machine σ → Prop} :
    wp (allocatePoolTo fw size pointer) Q E s ↔
      (∀ a, fw.allocatePool s.trace size = .ok a →
        Q () { (s.emit (.allocatePool size (.ok a))).emit (.store pointer 8) with
          mem := storeLE s.mem 8 pointer a }) ∧
      (∀ e, fw.allocatePool s.trace size = .error e →
        E (.efi e) (s.emit (.allocatePool size (.error e)))) := by
  simp only [allocatePoolTo, wp_bind, wp_allocatePool, wp_storeWord, Machine.emit_mem]

theorem biBuildMemmap_spec (pool : fw.SoundPool) {slot : Nat}
    (slotUsed : ∀ x, slot ≤ x → x < slot + 8 → InUse s.trace x) :
    wp (Build.biBuildMemmap fw slot)
      (fun _ s' => ∃ mm descriptors : UINT64,
        Obtains s.trace s'.trace [(descriptors, 14336), (mm, 40)] ∧
        loadLE s'.mem 8 slot = mm ∧
        BiMemmap.decode s'.mem mm.toNat = biBuildMemmap descriptors ∧
        (∀ x, (x < slot ∨ slot + 8 ≤ x) → ¬Inside (mm, 40) x → ¬Inside (descriptors, 14336) x →
          s'.mem x = s.mem x) ∧ s'.vars = s.vars)
      (fun stop s' => Refusal fw stop ∧ Holds s.trace s'.trace 0 ∧
        (∀ x, InUse s.trace x → (x < slot ∨ slot + 8 ≤ x) → s'.mem x = s.mem x) ∧
        s'.vars = s.vars) s := by
  simp only [Build.biBuildMemmap, wp_bind, wp_allocatePoolTo, wp_deref, wp_zeroMem, wp_storeDword,
    wp_storeWord, wp_loadWord, wp_onError, wp_allocatePool, freeDeref, wp_freePool, wp_throw]
  refine ⟨fun mm hmm => ?_, fun e he => ⟨⟨e, _, _, rfl, he⟩, (Holds.refl _).skip _ rfl, fun _ _ _ => rfl,
    rfl⟩⟩
  have first := (Obtains.refl s.trace).allocatePool pool hmm
  have apart : slot + 8 ≤ mm.toNat ∨ mm.toNat + 40 ≤ slot :=
    separated slotUsed (fun x low high => first.fresh (mm, 40) (by simp) x ⟨low, high⟩)
      (by omega) (by omega)
  simp only [Machine.emit_mem, Machine.emit_trace, Machine.emit_vars]
  simp (disch := omega) only [loadLE_storeLE_same, loadLE_storeLE_disjoint, loadLE_fill_disjoint]
  have size : (256 * 24 + 8192 : UINTN).toNat = 14336 := by decide
  constructor
  · intro descriptors hdescriptors
    have second := @Obtains.allocatePool s.trace _ [(mm, 40)] fw pool _ _ hdescriptors (by
      repeat first | refine Obtains.load ?_ _ _ | refine Obtains.store ?_ _ _
      exact first)
    rw [size] at second ⊢
    have apart' : slot + 8 ≤ descriptors.toNat ∨ descriptors.toNat + 14336 ≤ slot :=
      separated slotUsed (fun x low high => second.fresh (descriptors, 14336) (by simp) x ⟨low, high⟩)
        (by omega) (by omega)
    have apart'' : mm.toNat + 40 ≤ descriptors.toNat ∨ descriptors.toNat + 14336 ≤ mm.toNat := by
      obtain ⟨disjoint, -⟩ := List.pairwise_cons.mp second.disjoint
      exact separated (P := Inside (mm, 40)) (fun x low high => ⟨low, high⟩)
        (fun x low high => disjoint (mm, 40) (by simp) x ⟨low, high⟩) (by omega) (by omega)
    simp (disch := omega) only [loadLE_storeLE_same, loadLE_storeLE_disjoint, loadLE_fill_disjoint]
    refine ⟨mm, descriptors, ?_, ?_, ?_, ?_, trivial⟩
    · repeat first | refine Obtains.load ?_ _ _ | refine Obtains.store ?_ _ _
      exact second
    · rfl
    · simp (disch := omega) only [BiMemmap.decode, biBuildMemmap, loadLE_storeLE_same,
        loadLE_storeLE_disjoint, loadLE_fill_disjoint]
    · intro x hslot hmm hdesc
      simp only [Inside, not_and_or, Nat.not_le, Nat.not_lt] at hmm hdesc
      rw [storeLE_of_outside (by omega), fill_of_outside (by omega), storeLE_of_outside (by omega),
        storeLE_of_outside (by omega), storeLE_of_outside (by omega), storeLE_of_outside (by omega),
        fill_of_outside (by omega), storeLE_of_outside (by omega)]
  · intro e he
    refine ⟨⟨e, _, _, rfl, he⟩, ?_, ?_, trivial⟩
    · refine Holds.skip _ rfl (Holds.free _ rfl (Holds.skip _ rfl (Holds.skip _ rfl ?_)))
      refine (@Obtains.holds s.trace _ [(mm, 40)] ?_)
      repeat first | refine Obtains.load ?_ _ _ | refine Obtains.store ?_ _ _
      exact first
    · intro x used hslot
      have outside : ¬Inside (mm, 40) x := fun inside => first.fresh (mm, 40) (by simp) x inside used
      simp only [Inside, not_and_or, Nat.not_le, Nat.not_lt] at outside
      rw [storeLE_of_outside (by omega), storeLE_of_outside (by omega), storeLE_of_outside (by omega),
        storeLE_of_outside (by omega), storeLE_of_outside (by omega), fill_of_outside (by omega),
        storeLE_of_outside (by omega)]

theorem buildKernelmapDesc_spec {elfMap : ElfLoadinfo} {descriptors i : Nat}
    (hi : i < elfMap.sectionInfos.length) :
    wp (buildKernelmapDesc elfMap descriptors i)
      (fun _ s' => BiKernelmapdesc.decode s'.mem (descriptors + i * 32) =
          elfMap.sectionInfos[i].toBi ∧
        (∀ x, x < descriptors + i * 32 ∨ descriptors + i * 32 + 32 ≤ x → s'.mem x = s.mem x) ∧
        (∀ h bufs, Obtains h s.trace bufs → Obtains h s'.trace bufs) ∧ s'.vars = s.vars) E s := by
  simp only [buildKernelmapDesc, List.getElem?_eq_getElem hi, wp_bind, wp_storeWord,
    wp_storeDword]
  refine ⟨?_, fun x outside => ?_, fun h bufs o => ?_, rfl⟩
  · simp (disch := omega) only [BiKernelmapdesc.decode, ElfSectioninfo.toBi, loadLE_storeLE_same,
      loadLE_storeLE_disjoint]
  · rw [storeLE_of_outside (by omega), storeLE_of_outside (by omega),
      storeLE_of_outside (by omega), storeLE_of_outside (by omega)]
  · exact (((o.store _ _).store _ _).store _ _).store _ _

theorem BiKernelmapdesc.decode_congr {m m' : Mem} {a : Nat}
    (h : ∀ i < 32, m (a + i) = m' (a + i)) : decode m a = decode m' a := by
  have word : ∀ n k, k + n ≤ 32 → loadLE m n (a + k) = loadLE m' n (a + k) := by
    intro n k inside
    apply loadLE_congr
    intro i hi
    rw [Nat.add_assoc]
    exact h (k + i) (by omega)
  have first : loadLE m 8 a = loadLE m' 8 a := word 8 0 (by omega)
  simp only [decode, first, word 8 8 (by omega), word 8 16 (by omega), word 4 24 (by omega)]

/-- The loop writes one descriptor for each section. -/
theorem buildKernelmapLoop_spec {elfMap : ElfLoadinfo} {descriptors count : Nat}
    (hcount : count = elfMap.sectionInfos.length) :
    wp (forUp (buildKernelmapDesc elfMap descriptors) 0 count)
      (fun _ s' => (∀ i (hi : i < elfMap.sectionInfos.length),
          BiKernelmapdesc.decode s'.mem (descriptors + i * 32) = elfMap.sectionInfos[i].toBi) ∧
        (∀ x, x < descriptors ∨ descriptors + count * 32 ≤ x → s'.mem x = s.mem x) ∧
        (∀ h bufs, Obtains h s.trace bufs → Obtains h s'.trace bufs) ∧ s'.vars = s.vars) E s := by
  have loop := wp_forUp (E := E) (i := 0) (n := count) (s := s)
    (f := buildKernelmapDesc elfMap descriptors)
    (I := fun k t => (∀ i (hi : i < elfMap.sectionInfos.length), i < k →
        BiKernelmapdesc.decode t.mem (descriptors + i * 32) = elfMap.sectionInfos[i].toBi) ∧
      (∀ x, x < descriptors ∨ descriptors + k * 32 ≤ x → t.mem x = s.mem x) ∧
      (∀ h bufs, Obtains h s.trace bufs → Obtains h t.trace bufs) ∧ t.vars = s.vars) ?_
    ⟨by simp, fun _ _ => rfl, fun _ _ o => o, rfl⟩
  · refine wp_mono loop ?_ fun _ _ h => h
    rintro _ t ⟨done, rest⟩
    rw [Nat.zero_add] at done rest
    exact ⟨fun i hi => done i hi (by omega), rest⟩
  · rintro k t - below ⟨done, frame, trace, vars⟩
    rw [Nat.zero_add] at below
    refine wp_mono (buildKernelmapDesc_spec (by omega)) ?_ fun _ _ h => h
    rintro _ u ⟨written, frame', trace', vars'⟩
    refine ⟨fun i hi hik => ?_, fun x hx => ?_, fun h bufs o => trace' h bufs (trace h bufs o),
      vars'.trans vars⟩
    · by_cases last : i = k
      · subst last
        exact written
      · rw [← done i hi (by omega)]
        exact BiKernelmapdesc.decode_congr fun j hj => frame' _ (by omega)
    · rw [frame' x (by omega), frame x (by omega)]

theorem biBuildKernelmap_spec (pool : fw.SoundPool) {elfMap : ElfLoadinfo} {slot : Nat}
    (slotUsed : ∀ x, slot ≤ x → x < slot + 8 → InUse s.trace x)
    (hcount : elfMap.sectionCount.toNat = elfMap.sectionInfos.length)
    (few : elfMap.sectionCount.toNat ≤ 65535) :
    wp (Build.biBuildKernelmap fw elfMap slot)
      (fun _ s' => ∃ km descriptors : UINT64,
        Obtains s.trace s'.trace [(descriptors, elfMap.sectionCount.toNat * 32), (km, 32)] ∧
        loadLE s'.mem 8 slot = km ∧
        BiKernelmap.decode s'.mem km.toNat = ⟨1, 32, elfMap.sectionCount, descriptors⟩ ∧
        (∀ i (hi : i < elfMap.sectionInfos.length),
          BiKernelmapdesc.decode s'.mem (descriptors.toNat + i * 32) =
            elfMap.sectionInfos[i].toBi) ∧
        (∀ x, (x < slot ∨ slot + 8 ≤ x) → ¬Inside (km, 32) x →
          ¬Inside (descriptors, elfMap.sectionCount.toNat * 32) x → s'.mem x = s.mem x) ∧
        s'.vars = s.vars)
      (fun stop s' => Refusal fw stop ∧ Holds s.trace s'.trace 0 ∧
        (∀ x, InUse s.trace x → (x < slot ∨ slot + 8 ≤ x) → s'.mem x = s.mem x) ∧
        s'.vars = s.vars) s := by
  simp only [Build.biBuildKernelmap, wp_bind, wp_allocatePoolTo, wp_deref, wp_zeroMem,
    wp_storeDword, wp_storeWord, wp_loadWord, wp_onError, wp_allocatePool, freeDeref, wp_freePool,
    wp_throw]
  refine ⟨fun km hkm => ?_, fun e he => ⟨⟨e, _, _, rfl, he⟩, (Holds.refl _).skip _ rfl, fun _ _ _ => rfl,
    rfl⟩⟩
  have first := (Obtains.refl s.trace).allocatePool pool hkm
  have apart : slot + 8 ≤ km.toNat ∨ km.toNat + 32 ≤ slot :=
    separated slotUsed (fun x low high => first.fresh (km, 32) (by simp) x ⟨low, high⟩)
      (by omega) (by omega)
  simp only [Machine.emit_mem, Machine.emit_trace, Machine.emit_vars]
  simp (disch := omega) only [loadLE_storeLE_same, loadLE_storeLE_disjoint, loadLE_fill_disjoint]
  have size : (32 * elfMap.sectionCount : UINTN).toNat = elfMap.sectionCount.toNat * 32 := by
    rw [BitVec.toNat_mul, show (32 : UINTN).toNat = 32 from rfl]
    omega
  constructor
  · intro descriptors hdescriptors
    have second := @Obtains.allocatePool s.trace _ [(km, 32)] fw pool _ _ hdescriptors (by
      repeat first | refine Obtains.load ?_ _ _ | refine Obtains.store ?_ _ _
      exact first)
    rw [size] at second ⊢
    refine wp_mono (buildKernelmapLoop_spec hcount) ?_ fun _ _ h => h
    rintro _ t ⟨written, frame, trace, vars⟩
    -- a buffer without a section has no bytes, so the ranges are told apart byte by byte
    have slotOutside : ∀ x, slot ≤ x → x < slot + 8 →
        ¬Inside (descriptors, elfMap.sectionCount.toNat * 32) x :=
      fun x low high inside => second.fresh _ (by simp) x inside (slotUsed x low high)
    have kmOutside : ∀ x, Inside (km, 32) x →
        ¬Inside (descriptors, elfMap.sectionCount.toNat * 32) x :=
      fun x inside inside' => (List.pairwise_cons.mp second.disjoint).1 _ (by simp) x inside' inside
    have keep : ∀ x, ¬Inside (descriptors, elfMap.sectionCount.toNat * 32) x →
        t.mem x = storeLE (storeLE (storeLE (fill (storeLE s.mem 8 slot km) km.toNat 32 0) 4
          km.toNat 1) 8 (km.toNat + 8) 32) 8 (km.toNat + 16) elfMap.sectionCount x := by
      intro x outside
      simp only [Inside, not_and_or, Nat.not_le, Nat.not_lt] at outside
      rw [frame x (by omega)]
      exact fill_of_outside (by omega)
    have word : ∀ n k, k + n ≤ 32 → loadLE t.mem n (km.toNat + k) = loadLE (storeLE (storeLE (storeLE
        (fill (storeLE s.mem 8 slot km) km.toNat 32 0) 4 km.toNat 1) 8 (km.toNat + 8) 32) 8
        (km.toNat + 16) elfMap.sectionCount) n (km.toNat + k) := by
      intro n k inside
      refine loadLE_congr fun i hi => keep _ (kmOutside _ ⟨?_, ?_⟩)
      · exact Nat.le_trans (Nat.le_add_right _ k) (Nat.le_add_right _ i)
      · change km.toNat + k + i < km.toNat + 32
        omega
    have pointer : loadLE t.mem 8 slot = km := by
      rw [loadLE_congr fun i hi => keep _ (slotOutside _ (by omega) (by omega))]
      simp (disch := omega) only [loadLE_storeLE_same, loadLE_storeLE_disjoint,
        loadLE_fill_disjoint]
    rw [pointer]
    refine ⟨km, descriptors, ?_, ?_, ?_, fun i hi => ?_, fun x hslot hkm hdesc => ?_, vars⟩
    · exact ((trace _ _ (second.store _ _)).load _ _).store _ _
    · rw [loadLE_storeLE_disjoint (by omega), pointer]
    · have first := word 4 0 (by omega)
      rw [Nat.add_zero] at first
      simp (disch := omega) only [BiKernelmap.decode, loadLE_storeLE_same, loadLE_storeLE_disjoint,
        first, word 8 8 (by omega), word 8 16 (by omega)]
    · rw [← written i hi]
      refine BiKernelmapdesc.decode_congr fun j hj => storeLE_of_outside ?_
      have inside : Inside (descriptors, elfMap.sectionCount.toNat * 32)
          (descriptors.toNat + i * 32 + j) := by
        constructor
        · change descriptors.toNat ≤ _
          omega
        · change _ < descriptors.toNat + _
          omega
      have outside := fun inKm => kmOutside (descriptors.toNat + i * 32 + j) inKm inside
      change ¬Inside (km, 32) _ at outside
      simp only [Inside, not_and_or, Nat.not_le, Nat.not_lt] at outside
      omega
    · simp only [Inside, not_and_or, Nat.not_le, Nat.not_lt] at hkm
      rw [storeLE_of_outside (by omega), keep x hdesc, storeLE_of_outside (by omega),
        storeLE_of_outside (by omega), storeLE_of_outside (by omega), fill_of_outside (by omega),
        storeLE_of_outside (by omega)]
  · intro e he
    refine ⟨⟨e, _, _, rfl, he⟩, ?_, ?_, trivial⟩
    · refine Holds.skip _ rfl (Holds.free _ rfl (Holds.skip _ rfl (Holds.skip _ rfl ?_)))
      refine (@Obtains.holds s.trace _ [(km, 32)] ?_)
      repeat first | refine Obtains.load ?_ _ _ | refine Obtains.store ?_ _ _
      exact first
    · intro x used hslot
      have outside : ¬Inside (km, 32) x := fun inside => first.fresh (km, 32) (by simp) x inside used
      simp only [Inside, not_and_or, Nat.not_le, Nat.not_lt] at outside
      rw [storeLE_of_outside (by omega), storeLE_of_outside (by omega), storeLE_of_outside (by omega),
        storeLE_of_outside (by omega), fill_of_outside (by omega), storeLE_of_outside (by omega)]

/-- The words of `n` bytes from `a` on are the same in both memories. -/
theorem words_congr {m m' : Mem} {a n : Nat} (h : ∀ x, a ≤ x → x < a + n → m x = m' x) (k i : Nat)
    (inside : i + k ≤ n) : loadLE m k (a + i) = loadLE m' k (a + i) :=
  loadLE_congr fun j hj => h _ (by omega) (by omega)

theorem BiMemmap.decode_congr {m m' : Mem} {a : Nat}
    (h : ∀ x, a ≤ x → x < a + 40 → m x = m' x) : decode m a = decode m' a := by
  have first : loadLE m 4 a = loadLE m' 4 a := words_congr h 4 0 (by omega)
  simp only [decode, first, words_congr h 8 8 (by omega), words_congr h 8 16 (by omega),
    words_congr h 8 24 (by omega), words_congr h 8 32 (by omega)]

theorem BiKernelmap.decode_congr {m m' : Mem} {a : Nat}
    (h : ∀ x, a ≤ x → x < a + 32 → m x = m' x) : decode m a = decode m' a := by
  have first : loadLE m 4 a = loadLE m' 4 a := words_congr h 4 0 (by omega)
  simp only [decode, first, words_congr h 8 8 (by omega), words_congr h 8 16 (by omega),
    words_congr h 8 24 (by omega)]

theorem BiBootinfo.decode_congr {m m' : Mem} {a : Nat}
    (h : ∀ x, a ≤ x → x < a + 48 → m x = m' x) : decode m a = decode m' a := by
  have first : loadLE m 4 a = loadLE m' 4 a := words_congr h 4 0 (by omega)
  have magic : slice m (a + 16) 4 = slice m' (a + 16) 4 :=
    slice_congr fun i hi => h _ (by omega) (by omega)
  simp only [decode, first, magic, words_congr h 4 4 (by omega), words_congr h 8 8 (by omega),
    words_congr h 4 20 (by omega), words_congr h 8 24 (by omega), words_congr h 8 32 (by omega),
    words_congr h 8 40 (by omega)]

theorem storeLE_byte {m : Mem} {a : Nat} {w : BitVec (8 * 1)} : storeLE m 1 a w a = w := by
  rw [storeLE, if_pos ⟨Nat.le_refl a, Nat.lt_succ_self a⟩, Nat.sub_self]
  exact BitVec.extractLsb'_eq_self

/-- The fields that `bi_build_bootinfo` writes itself. -/
theorem header_written {m : Mem} {b : Nat} :
    BiBootinfo.decode (storeLE (storeLE (storeLE (storeLE (storeLE (storeLE (storeLE (storeLE
        (storeLE (fill m b 48 0) 4 (b + 4) 1) 4 b 0) 8 (b + 8) 0) 1 (b + 16) 0x4E) 1 (b + 17) 0x42)
        1 (b + 18) 0x36) 1 (b + 19) 0x34) 8 (b + 24) 48) 4 (b + 20) 1) b =
      ⟨0, 1, 0, [0x4E, 0x42, 0x36, 0x34], 1, 48, 0, 0⟩ := by
  have bytes : ∀ m : Mem, slice m (b + 16) 4 = [m (b + 16), m (b + 17), m (b + 18), m (b + 19)] :=
    fun _ => rfl
  simp (disch := omega) only [BiBootinfo.decode, loadLE_storeLE_same, loadLE_storeLE_disjoint,
    loadLE_fill_zero, bytes, storeLE_of_outside, storeLE_byte]

/-- The cleanup after a failed `bi_build_kernelmap`. -/
theorem failMemmap_spec {α : Type} {e : EfiError} {b mm descriptors : UINT64}
    {Q : α → Machine σ → Prop} {h : List Event} (hmm : loadLE s.mem 8 (b.toNat + 32) = mm)
    (hdesc : loadLE s.mem 8 (mm.toNat + 32) = descriptors) (nonnull : mm ≠ 0)
    (nonnull' : descriptors ≠ 0)
    (holds : Holds h s.trace (Resource.pool descriptors ::ₘ .pool mm ::ₘ .pool b ::ₘ 0)) :
    wp (failMemmap b e) Q (fun stop s' => stop = .efi e ∧ Holds h s'.trace 0 ∧ s'.mem = s.mem ∧
      s'.vars = s.vars) s := by
  simp only [failMemmap, failBootinfo, wp_bind, wp_loadWord, wp_ite, wp_freePool, wp_throw,
    Machine.emit_mem, hmm, hdesc]
  refine ⟨fun _ => ⟨fun _ => ⟨trivial, ?_, trivial, rfl⟩, fun null => absurd nonnull' null⟩,
    fun null => absurd nonnull null⟩
  exact (((holds.skip _ rfl).skip _ rfl).free _ rfl |>.free _ rfl).free _ rfl

theorem biBuildBootinfo_spec (pool : fw.SoundPool) {elf : ElfLoadinfo}
    (hcount : elf.sectionCount.toNat = elf.sectionInfos.length)
    (few : elf.sectionCount.toNat ≤ 65535) :
    wp (biBuildBootinfo fw elf)
      (fun info s' => ∃ b : BootBuffers, b.info = info ∧
        Obtains s.trace s'.trace (b.list elf) ∧ b.Hold elf s'.mem ∧
        (∀ x, (∀ buf ∈ b.list elf, ¬Inside buf x) → s'.mem x = s.mem x) ∧ s'.vars = s.vars)
      (fun stop s' => Refusal fw stop ∧ Holds s.trace s'.trace 0 ∧
        (∀ x, InUse s.trace x → s'.mem x = s.mem x) ∧ s'.vars = s.vars) s := by
  simp only [biBuildBootinfo, wp_bind, wp_zeroMem, wp_storeDword, wp_storeWord, wp_storeByte,
    wp_onError, wp_allocatePool, wp_pure]
  refine ⟨fun info hinfo => ?_, fun e he => ⟨⟨e, _, _, rfl, he⟩, (Holds.refl _).skip _ rfl,
    fun _ _ => rfl, rfl⟩⟩
  have first := (Obtains.refl s.trace).allocatePool pool hinfo
  simp only [Machine.emit_mem, Machine.emit_trace, Machine.emit_vars]
  generalize hmachine : (Machine.mk _ _ _ : Machine σ) = s₁
  have base : Obtains s.trace s₁.trace [(info, 48)] := by
    subst hmachine
    repeat first | refine Obtains.load ?_ _ _ | refine Obtains.store ?_ _ _
    exact first
  have header : BiBootinfo.decode s₁.mem info.toNat =
      ⟨0, 1, 0, [0x4E, 0x42, 0x36, 0x34], 1, 48, 0, 0⟩ := by
    subst hmachine
    exact header_written
  have outside₁ : ∀ x, ¬Inside (info, 48) x → s₁.mem x = s.mem x := by
    intro x hx
    subst hmachine
    simp only [Inside, not_and_or, Nat.not_le, Nat.not_lt] at hx
    dsimp only
    simp (disch := omega) only [storeLE_of_outside, fill_of_outside]
  have vars₁ : s₁.vars = s.vars := by
    subst hmachine
    rfl
  clear hmachine first
  have used : ∀ slot, slot + 8 ≤ 48 → ∀ x, info.toNat + slot ≤ x → x < info.toNat + slot + 8 →
      InUse s₁.trace x := by
    intro slot hslot x low high
    refine base.used (info, 48) (by simp) x ⟨by dsimp only; omega, by dsimp only; omega⟩
  -- what is in use before the call lies outside the first buffer
  have old : ∀ x, InUse s.trace x → s₁.mem x = s.mem x :=
    fun x hx => outside₁ x fun inside => base.fresh (info, 48) (by simp) x inside hx
  refine wp_mono (biBuildMemmap_spec pool (used 32 (by omega))) ?_ ?_
  · rintro _ t ⟨mm, descriptors, obtained, hmm, hmap, frame, vars⟩
    have both := base.trans obtained
    rw [List.cons_append, List.cons_append, List.nil_append] at both
    have inInfo : ∀ x, Inside (info, 48) x → ¬Inside (mm, 40) x ∧ ¬Inside (descriptors, 14336) x :=
      fun x inside =>
        ⟨fun inside' => obtained.fresh (mm, 40) (by simp) x inside' (base.used _ (by simp) x inside),
          fun inside' => obtained.fresh (descriptors, 14336) (by simp) x inside'
            (base.used _ (by simp) x inside)⟩
    have slotUsed : ∀ x, info.toNat + 40 ≤ x → x < info.toNat + 40 + 8 → InUse t.trace x :=
      fun x low high => obtained.inUse x (used 40 (by omega) x low high)
    -- the second pointer lies outside the map that the first one leads to
    have mmOutside : ∀ x, Inside (mm, 40) x → x < info.toNat + 40 ∨ info.toNat + 40 + 8 ≤ x := by
      intro x inside
      by_contra overlap
      exact (inInfo x ⟨by dsimp only; omega, by dsimp only; omega⟩).1 inside
    refine wp_mono (biBuildKernelmap_spec pool slotUsed hcount few) ?_ ?_
    · rintro _ u ⟨km, kernelDescs, obtained', hkm, hkernel, hsections, frame', vars'⟩
      have all := both.trans obtained'
      rw [List.cons_append, List.cons_append, List.nil_append] at all
      have newer : ∀ x, InUse t.trace x → ¬Inside (km, 32) x ∧
          ¬Inside (kernelDescs, elf.sectionCount.toNat * 32) x :=
        fun x hx => ⟨fun inside => obtained'.fresh (km, 32) (by simp) x inside hx,
          fun inside => obtained'.fresh _ (by simp) x inside hx⟩
      have keepInfo : ∀ x, info.toNat ≤ x → x < info.toNat + 32 → u.mem x = s₁.mem x := by
        intro x low high
        have inside : Inside (info, 48) x := ⟨by dsimp only; omega, by dsimp only; omega⟩
        have hx := newer x (both.used (info, 48) (by simp) x inside)
        rw [frame' x (by omega) hx.1 hx.2, frame x (by omega) (inInfo x inside).1 (inInfo x inside).2]
      have keepMap : ∀ x, Inside (mm, 40) x → u.mem x = t.mem x := by
        intro x inside
        have hx := newer x (both.used (mm, 40) (by simp) x inside)
        exact frame' x (mmOutside x inside) hx.1 hx.2
      refine ⟨⟨info, mm, descriptors, km, kernelDescs⟩, rfl, all, ⟨?_, ?_, hkernel, hsections⟩, ?_,
        vars'.trans (vars.trans vars₁)⟩
      · have hfirst : loadLE u.mem 8 (info.toNat + 32) = mm := by
          rw [← hmm]
          refine loadLE_congr fun i hi => ?_
          have hx := newer _ (both.used (info, 48) (by simp) (info.toNat + 32 + i)
            ⟨by dsimp only; omega, by dsimp only; omega⟩)
          exact frame' _ (by omega) hx.1 hx.2
        simp only [BiBootinfo.decode, BiBootinfo.mk.injEq] at header ⊢
        have start : loadLE u.mem 4 info.toNat = loadLE s₁.mem 4 info.toNat :=
          words_congr keepInfo 4 0 (by omega)
        have magic : slice u.mem (info.toNat + 16) 4 = slice s₁.mem (info.toNat + 16) 4 :=
          slice_congr fun i hi => keepInfo _ (by omega) (by omega)
        rw [start, magic, words_congr keepInfo 4 4 (by omega), words_congr keepInfo 8 8 (by omega),
          words_congr keepInfo 4 20 (by omega), words_congr keepInfo 8 24 (by omega), hfirst, hkm]
        obtain ⟨h₁, h₂, h₃, h₄, h₅, h₆, -, -⟩ := header
        exact ⟨h₁, h₂, h₃, h₄, h₅, h₆, rfl, rfl⟩
      · rw [← hmap]
        exact BiMemmap.decode_congr fun x low high => keepMap x ⟨low, high⟩
      · intro x hx
        have hinfo := hx (info, 48) (by simp [BootBuffers.list])
        have hmm := hx (mm, 40) (by simp [BootBuffers.list])
        have hdesc := hx (descriptors, 14336) (by simp [BootBuffers.list])
        have hkm := hx (km, 32) (by simp [BootBuffers.list])
        have hkd := hx (kernelDescs, elf.sectionCount.toNat * 32) (by simp [BootBuffers.list])
        have houtside := outside₁ x hinfo
        simp only [Inside, not_and_or, Nat.not_le, Nat.not_lt] at hinfo
        rw [frame' x (by omega) hkm hkd, frame x (by omega) hmm hdesc, houtside]
    · rintro stop u ⟨⟨e, h, n, rfl, he⟩, holds, frame', vars'⟩
      have hfirst : loadLE u.mem 8 (info.toNat + 32) = mm := by
        rw [← hmm]
        refine loadLE_congr fun i hi => frame' _ (both.used (info, 48) (by simp) _ ?_) (by omega)
        exact ⟨by dsimp only; omega, by dsimp only; omega⟩
      have hsecond : loadLE u.mem 8 (mm.toNat + 32) = descriptors := by
        have field := congrArg BiMemmap.pDescriptors hmap
        refine Eq.trans (loadLE_congr fun i hi => ?_) field
        have inside : Inside (mm, 40) (mm.toNat + 32 + i) :=
          ⟨by dsimp only; omega, by dsimp only; omega⟩
        exact frame' _ (both.used (mm, 40) (by simp) _ inside) (mmOutside _ inside)
      have held := both.holds.trans holds
      rw [add_zero] at held
      refine wp_mono (failMemmap_spec hfirst hsecond (both.nonnull (mm, 40) (by simp))
        (both.nonnull (descriptors, 14336) (by simp)) held) (fun _ _ h => h) ?_
      rintro stop v ⟨rfl, freed, mem, vars''⟩
      refine ⟨⟨e, h, n, rfl, he⟩, freed, fun x hx => ?_, vars''.trans (vars'.trans (vars.trans vars₁))⟩
      have outside : ¬Inside (info, 48) x := fun inside => base.fresh (info, 48) (by simp) x inside hx
      simp only [Inside, not_and_or, Nat.not_le, Nat.not_lt] at outside
      have hnew := base.inUse x hx
      rw [mem, frame' x (obtained.inUse x hnew) (by omega), frame x (by omega)
        (fun inside => obtained.fresh (mm, 40) (by simp) x inside hnew)
        (fun inside => obtained.fresh (descriptors, 14336) (by simp) x inside hnew), old x hx]
  · rintro stop t ⟨⟨e, h, n, rfl, he⟩, holds, frame, vars⟩
    simp only [failBootinfo, wp_bind, wp_freePool, wp_throw]
    refine ⟨⟨e, h, n, rfl, he⟩, ?_, fun x hx => ?_, vars.trans vars₁⟩
    · have all := base.holds.trans holds
      exact Holds.free _ rfl (by simpa using all)
    · have outside : ¬Inside (info, 48) x := fun inside => base.fresh (info, 48) (by simp) x inside hx
      simp only [Inside, not_and_or, Nat.not_le, Nat.not_lt] at outside
      exact (frame x (base.inUse x hx) (by omega)).trans (old x hx)

/-- The loop, for a map that may be empty: then its buffer may be anywhere. -/
theorem biUpdateLoop_apart {s : Machine HandoverVars} {descs base limit stride count : Nat}
    {E : Stop → Machine HandoverVars → Prop} (hstride : 40 ≤ stride)
    (apart : ∀ x, descs ≤ x → x < descs + count * stride → ¬(base ≤ x ∧ x < limit))
    (room : base + count * 24 ≤ limit) :
    wp (forUp (fun i => do
      returnIf (base + i * 24 + 24 > limit) .bufferTooSmall
      biUpdateDesc (descs + i * stride) (base + i * 24)) 0 count)
      (fun _ s' => (∀ i < count, BiMemdesc.decode s'.mem (base + i * 24) =
          (EfiMemoryDescriptor.decode s.mem (descs + i * stride)).toBi) ∧
        (∀ x, x < base ∨ base + count * 24 ≤ x → s'.mem x = s.mem x) ∧ s'.vars = s.vars) E s := by
  by_cases empty : count = 0
  · subst empty
    exact ⟨by simp, fun _ _ => rfl, rfl⟩
  · have some : 1 * stride ≤ count * stride := Nat.mul_le_mul_right _ (by omega)
    refine biUpdateLoop_spec hstride ?_ room
    by_contra overlap
    have low := apart (max descs base) (by omega) (by omega)
    exact low (by omega)

/-- The structure in memory is updated as the variable is that `biUpdateMemmap` has for it. -/
theorem biUpdateMemmapInMemory_spec {s : Machine HandoverVars} {memmap : Nat} {bm : BiMemmap}
    (there : BiMemmap.decode s.mem memmap = bm) (nonnull : bm.pDescriptors ≠ 0)
    (stride : 40 ≤ s.vars.memMap.descSize.toNat)
    (apart : ∀ x, Inside (s.vars.memMap.descs, s.vars.memMap.size.toNat) x →
      ¬Inside (bm.pDescriptors, bm.bufferSize.toNat) x)
    (headApart : memmap + 40 ≤ bm.pDescriptors.toNat ∨
      bm.pDescriptors.toNat + bm.bufferSize.toNat ≤ memmap)
    (mapApart : ∀ x, Inside (s.vars.memMap.descs, s.vars.memMap.size.toNat) x →
      x < memmap ∨ memmap + 40 ≤ x) :
    wp (Build.biUpdateMemmap memmap)
      (fun _ s' => (s.vars.memMap.view s.mem).count * 24 ≤ bm.bufferSize.toNat ∧
        BiMemmap.decode s'.mem memmap =
          { bm with descriptorCount := s.vars.memMap.size / s.vars.memMap.descSize } ∧
        (BiMemmap.decode s'.mem memmap).Converts s'.mem (s.vars.memMap.view s.mem) ∧
        (∀ x, ¬Inside (bm.pDescriptors, bm.bufferSize.toNat) x →
          (x < memmap + 24 ∨ memmap + 32 ≤ x) → s'.mem x = s.mem x) ∧ s'.vars = s.vars)
      (fun stop s' => stop = .efi .bufferTooSmall ∧ s'.mem = s.mem ∧ s'.vars = s.vars ∧
        bm.bufferSize.toNat < (s.vars.memMap.view s.mem).count * 24) s := by
  have inside := s.vars.memMap.count_mul_le s.mem
  have nonzero : s.vars.memMap.descSize ≠ 0 := by
    intro zero
    rw [zero] at stride
    exact absurd stride (by decide)
  subst there
  dsimp only [Inside, BiMemmap.decode] at nonnull apart headApart mapApart
  simp only [Build.biUpdateMemmap, wp_bind, wp_get, wp_loadWord, wp_returnIf, wp_faultIf,
    wp_storeWord, Machine.emit_mem, Machine.emit_vars, s.vars.memMap.outBytes_toNat s.mem stride]
  refine ⟨fun null => absurd null nonnull, fun _ => ⟨fun zero => absurd zero nonzero, fun _ =>
    ⟨fun large => ⟨trivial, trivial, trivial, Nat.lt_of_add_lt_add_left large⟩, fun fits => ?_⟩⟩⟩
  have count : (s.vars.memMap.size / s.vars.memMap.descSize).toNat =
      (s.vars.memMap.view s.mem).count := rfl
  have room : (s.vars.memMap.view s.mem).count * 24 ≤ (loadLE s.mem 8 (memmap + 8)).toNat := by
    omega
  refine wp_mono (biUpdateLoop_apart stride ?_ (by rw [count]; exact Nat.add_le_add_left room _)) ?_
    (fun _ _ h => h)
  · intro x low high
    rw [count] at high
    exact apart x ⟨low, by omega⟩
  rintro _ s' ⟨written, frame, vars⟩
  dsimp only at written frame
  -- the loop leaves the structure alone, which is apart from its buffer
  have head : ∀ x, memmap ≤ x → x < memmap + 40 → s'.mem x =
      storeLE s.mem 8 (memmap + 24) (s.vars.memMap.size / s.vars.memMap.descSize) x :=
    fun x low high => frame x (by omega)
  have updated : BiMemmap.decode s'.mem memmap = { BiMemmap.decode s.mem memmap with
      descriptorCount := s.vars.memMap.size / s.vars.memMap.descSize } := by
    rw [BiMemmap.decode_congr head]
    simp (disch := omega) only [BiMemmap.decode, loadLE_storeLE_same, loadLE_storeLE_disjoint]
  refine ⟨room, updated, ⟨?_, fun i hi => ?_⟩, fun x outside houtside => ?_, vars⟩
  · rw [updated]
    exact count
  · rw [updated, EfiMemmapVar.desc_view]
    refine (written i hi).trans (congrArg _ (EfiMemoryDescriptor.decode_moved fun j hj => ?_))
    have here : i * s.vars.memMap.descSize.toNat + 40 ≤ s.vars.memMap.size.toNat := by
      calc i * s.vars.memMap.descSize.toNat + 40
          ≤ i * s.vars.memMap.descSize.toNat + s.vars.memMap.descSize.toNat :=
            Nat.add_le_add_left stride _
        _ = (i + 1) * s.vars.memMap.descSize.toNat := (Nat.succ_mul _ _).symm
        _ ≤ (s.vars.memMap.view s.mem).count * s.vars.memMap.descSize.toNat :=
            Nat.mul_le_mul_right _ hi
        _ ≤ s.vars.memMap.size.toNat := inside
    have outside := mapApart (s.vars.memMap.descs.toNat + i * s.vars.memMap.descSize.toNat + j)
      ⟨by omega, by omega⟩
    exact storeLE_of_outside (by omega)
  · simp only [Inside, BiMemmap.decode, not_and_or, Nat.not_le, Nat.not_lt] at outside
    rw [frame x (by omega)]
    exact storeLE_of_outside (by omega)

end Specs

end MidnightOS.Nyxboot
