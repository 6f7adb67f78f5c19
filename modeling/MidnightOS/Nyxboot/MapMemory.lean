import MidnightOS.Nyxboot.Elf
import MidnightOS.Nyxboot.MapCalls

/-! # The address space of the kernel (`map_memory` of `main.c`)

`mapMemory` follows the source: it maps each usable descriptor of the memory map
twice, then each section of the loaded program.  On page maps these are
`PageMap.setDesc` and `PageMap.setSection`, and `mapMemory_spec` says that the
tables end up holding `addressSpace`, their composition in order.

Later mappings win.  `addressSpace_section`, `addressSpace_ram` and
`addressSpace_none` are the three cases of what that comes to.
-/

namespace MidnightOS.Nyxboot

open MidnightOS.Lib

/-! ## The source -/

def directMapBase : UINT64 := 0xFFFF800000000000#64

/-- `EFI_MEMORY_DESCRIPTOR`, without the fields that nothing reads. -/
structure EfiMemoryDescriptor where
  type : UINT32
  physicalStart : UINT64
  numberOfPages : UINT64

/-- `efi_memmap_t`.  `descs` is the buffer that the field points to. -/
structure EfiMemmap where
  descs : Mem
  size : UINTN
  descSize : UINTN

/-- The descriptor at index `i`; descriptors are `descSize` bytes apart. -/
def EfiMemmap.desc (memMap : EfiMemmap) (i : Nat) : EfiMemoryDescriptor where
  type := loadLE memMap.descs 4 (i * memMap.descSize.toNat)
  physicalStart := loadLE memMap.descs 8 (i * memMap.descSize.toNat + 8)
  numberOfPages := loadLE memMap.descs 8 (i * memMap.descSize.toNat + 24)

def EfiMemmap.count (memMap : EfiMemmap) : Nat := (memMap.size / memMap.descSize).toNat

/-- The descriptor is of one of the six types that are not mapped: unusable and
    reserved memory, the two kinds of mapped I/O, PAL code, persistent memory. -/
def EfiMemoryDescriptor.Skipped (desc : EfiMemoryDescriptor) : Prop :=
  desc.type = 8 ∨ desc.type = 0 ∨ desc.type = 11 ∨ desc.type = 12 ∨ desc.type = 13 ∨
    desc.type = 14

instance (desc : EfiMemoryDescriptor) : Decidable desc.Skipped :=
  inferInstanceAs (Decidable (_ ∨ _))

section Source

variable {σ : Type}

def mapDescriptor (fw : Firmware) (pml4 : UINT64) (desc : EfiMemoryDescriptor) : Efi σ Unit :=
  if desc.Skipped then pure () else do
    memMapPages fw pml4 desc.physicalStart desc.physicalStart desc.numberOfPages
    memMapPages fw pml4 (desc.physicalStart + directMapBase) desc.physicalStart desc.numberOfPages

/-- `i` is below `sectionCount`; past the end of the array nothing is defined. -/
def mapSection (fw : Firmware) (pml4 : UINT64) (loadInfo : ElfLoadinfo) (i : Nat) : Efi σ Unit :=
  match loadInfo.sectionInfos[i]? with
  | none => throw .fault
  | some sec => memMapPages fw pml4 sec.reqVirt sec.phys sec.pageCount

def mapMemory (fw : Firmware) (pml4 : UINT64) (memMap : EfiMemmap) (loadInfo : ElfLoadinfo) :
    Efi σ Unit := do
  faultIf (memMap.descSize = 0)
  forUp (fun i => mapDescriptor fw pml4 (memMap.desc i)) 0 memMap.count
  forUp (mapSection fw pml4 loadInfo) 0 loadInfo.sectionCount.toNat

end Source

/-! ## The page map -/

def PageMap.setDesc (M : PageMap) (desc : EfiMemoryDescriptor) : PageMap :=
  if desc.Skipped then M else
    (M.setRange (desc.physicalStart.toNat / 4096) (desc.physicalStart.toNat / 4096)
      desc.numberOfPages.toNat).setRange ((desc.physicalStart + directMapBase).toNat / 4096)
      (desc.physicalStart.toNat / 4096) desc.numberOfPages.toNat

def PageMap.setSection (M : PageMap) (sec : ElfSectioninfo) : PageMap :=
  M.setRange (sec.reqVirt.toNat / 4096) (sec.phys.toNat / 4096) sec.pageCount.toNat

/-- The first `count` descriptors, mapped in order over nothing. -/
def ramMap (memMap : EfiMemmap) (count : Nat) : PageMap :=
  (List.range count).foldl (fun M i => M.setDesc (memMap.desc i)) fun _ => none

/-- The descriptors, then the sections. -/
def addressSpace (memMap : EfiMemmap) (secs : List ElfSectioninfo) : PageMap :=
  secs.foldl PageMap.setSection (ramMap memMap memMap.count)

theorem ramMap_succ (memMap : EfiMemmap) (count : Nat) :
    ramMap memMap (count + 1) = (ramMap memMap count).setDesc (memMap.desc count) := by
  rw [ramMap, ramMap, List.range_succ, List.foldl_append]
  rfl

/-! ## The tables hold the address space -/

section Specs

variable {σ : Type} {fw : Firmware} {root : Nat} {live : List Nat} {s : Machine σ} {pml4 : UINT64}

theorem mapDescriptor_spec (hfw : fw.SoundPages) (hroot : pml4.toNat = 4096 * root)
    (t : Tables s root live) (desc : EfiMemoryDescriptor) :
    wp (mapDescriptor fw pml4 desc)
      (fun _ s' => ∃ evs, TableRun root live s s' evs ∧
        pageMap s'.mem root = (pageMap s.mem root).setDesc desc)
      (fun e s' => e ≠ .fault ∧ ∃ evs, TableRun root live s s' evs) s := by
  rw [mapDescriptor, PageMap.setDesc]
  by_cases hskipped : desc.Skipped
  · rw [if_pos hskipped, if_pos hskipped]
    exact ⟨_, TableRun.refl t, rfl⟩
  · rw [if_neg hskipped, if_neg hskipped, wp_bind]
    refine wp_mono (memMapPages_spec hfw hroot t _ _ _) ?_ (fun _ _ he => he)
    rintro _ s₁ ⟨evs₁, hrun₁, hmap₁, _⟩
    refine wp_mono (memMapPages_spec hfw hroot hrun₁.tables _ _ _) ?_ ?_
    · rintro _ s₂ ⟨evs₂, hrun₂, hmap₂, _⟩
      exact ⟨_, hrun₁.trans hrun₂, by rw [hmap₂, hmap₁]⟩
    · rintro e s₂ ⟨he, evs₂, hrun₂⟩
      exact ⟨he, _, hrun₁.trans hrun₂⟩

/-- The first loop, on a zeroed page. -/
theorem mapDescriptors_spec (hfw : fw.SoundPages) (hz : ZeroedPml4 s pml4) (memMap : EfiMemmap)
    (count : Nat) :
    wp (forUp (fun i => mapDescriptor fw pml4 (memMap.desc i)) 0 count)
      (fun _ s' => ∃ evs, TableRun (pml4.toNat / 4096) [] s s' evs ∧
        pageMap s'.mem (pml4.toNat / 4096) = ramMap memMap count)
      (fun e s' => e ≠ .fault ∧ ∃ evs, TableRun (pml4.toNat / 4096) [] s s' evs) s := by
  have hloop := wp_forUp (f := fun i => mapDescriptor fw pml4 (memMap.desc i)) (i := 0) (n := count)
    (I := fun i s' => ∃ evs, TableRun (pml4.toNat / 4096) [] s s' evs ∧
      pageMap s'.mem (pml4.toNat / 4096) = ramMap memMap i)
    (E := fun e s' => e ≠ .fault ∧ ∃ evs, TableRun (pml4.toNat / 4096) [] s s' evs) (s := s) ?_
    ⟨_, TableRun.refl hz.tables, funext fun n => hz.pageMap_eq n⟩
  · rwa [Nat.zero_add] at hloop
  · rintro i t _ _ ⟨evs, hrun, hmap⟩
    refine wp_mono (mapDescriptor_spec hfw hz.frame hrun.tables _) ?_ ?_
    · rintro _ t' ⟨evs', hrun', hmap'⟩
      exact ⟨_, hrun.trans hrun', by rw [hmap', hmap, ramMap_succ]⟩
    · rintro e t' ⟨he, evs', hrun'⟩
      exact ⟨he, _, hrun.trans hrun'⟩

/-- The second loop, on tables that hold a page map. -/
theorem mapSections_spec (hfw : fw.SoundPages) (hroot : pml4.toNat = 4096 * root)
    (t : Tables s root live) (loadInfo : ElfLoadinfo) {count : Nat}
    (hcount : count ≤ loadInfo.sectionInfos.length) :
    wp (forUp (mapSection fw pml4 loadInfo) 0 count)
      (fun _ s' => ∃ evs, TableRun root live s s' evs ∧
        pageMap s'.mem root =
          (loadInfo.sectionInfos.take count).foldl PageMap.setSection (pageMap s.mem root) ∧
        ∀ sec ∈ loadInfo.sectionInfos.take count,
          sec.reqVirt.toNat % 4096 = 0 ∧ sec.phys.toNat % 4096 = 0)
      (fun e s' => e ≠ .fault ∧ ∃ evs, TableRun root live s s' evs) s := by
  have hloop := wp_forUp (f := mapSection fw pml4 loadInfo) (i := 0) (n := count)
    (I := fun i s' => ∃ evs, TableRun root live s s' evs ∧
      pageMap s'.mem root =
        (loadInfo.sectionInfos.take i).foldl PageMap.setSection (pageMap s.mem root) ∧
      ∀ sec ∈ loadInfo.sectionInfos.take i,
        sec.reqVirt.toNat % 4096 = 0 ∧ sec.phys.toNat % 4096 = 0)
    (E := fun e s' => e ≠ .fault ∧ ∃ evs, TableRun root live s s' evs) (s := s) ?_
    ⟨_, TableRun.refl t, rfl, by simp⟩
  · rwa [Nat.zero_add] at hloop
  · rintro i u _ hi ⟨evs, hrun, hmap, haligned⟩
    have hlt : i < loadInfo.sectionInfos.length := by omega
    -- round `i` maps section `i` on top of those before it
    have htake : loadInfo.sectionInfos.take (i + 1) =
        loadInfo.sectionInfos.take i ++ [loadInfo.sectionInfos[i]] := by
      rw [List.take_add_one, List.getElem?_eq_getElem hlt]
      rfl
    simp only [mapSection, List.getElem?_eq_getElem hlt]
    refine wp_mono (memMapPages_spec hfw hroot hrun.tables _ _ _) ?_ ?_
    · rintro _ u' ⟨evs', hrun', hmap', hv, hp⟩
      refine ⟨_, hrun.trans hrun', ?_, ?_⟩
      · rw [hmap', hmap, htake, List.foldl_append]
        rfl
      · rw [htake]
        exact List.forall_mem_append.mpr ⟨haligned, List.forall_mem_singleton.mpr ⟨hv, hp⟩⟩
    · rintro e u' ⟨he, evs', hrun'⟩
      exact ⟨he, _, hrun.trans hrun'⟩

/-- On success the tables hold the address space, and every section begins on a
    page boundary, in both address spaces. -/
theorem mapMemory_spec (hfw : fw.SoundPages) (hz : ZeroedPml4 s pml4) (memMap : EfiMemmap)
    (loadInfo : ElfLoadinfo)
    (hcount : loadInfo.sectionCount.toNat = loadInfo.sectionInfos.length) :
    wp (mapMemory fw pml4 memMap loadInfo)
      (fun _ s' => ∃ evs, TableRun (pml4.toNat / 4096) [] s s' evs ∧
        pageMap s'.mem (pml4.toNat / 4096) = addressSpace memMap loadInfo.sectionInfos ∧
        ∀ sec ∈ loadInfo.sectionInfos, sec.reqVirt.toNat % 4096 = 0 ∧ sec.phys.toNat % 4096 = 0)
      (fun _ s' => ∃ evs, TableRun (pml4.toNat / 4096) [] s s' evs) s := by
  simp only [mapMemory, wp_bind, wp_faultIf]
  refine ⟨fun _ => ⟨_, TableRun.refl hz.tables⟩, fun _ => ?_⟩
  refine wp_mono (mapDescriptors_spec hfw hz memMap memMap.count) ?_ (fun _ _ he => he.2)
  rintro _ s₁ ⟨evs₁, hrun₁, hmap₁⟩
  refine wp_mono (mapSections_spec hfw hz.frame hrun₁.tables loadInfo (Nat.le_of_eq hcount)) ?_ ?_
  · rw [hcount, List.take_length, hmap₁]
    rintro _ s₂ ⟨evs₂, hrun₂, hmap₂, haligned⟩
    exact ⟨_, hrun₁.trans hrun₂, hmap₂, haligned⟩
  · rintro e s₂ ⟨_, evs₂, hrun₂⟩
    exact ⟨_, hrun₁.trans hrun₂⟩

end Specs

/-! ## The last mapping wins -/

/-- Page `j` of the section is at the virtual page with number `n`. -/
def ElfSectioninfo.PageAt (sec : ElfSectioninfo) (n j : Nat) : Prop :=
  j < sec.pageCount.toNat ∧ n % 2 ^ 36 = (sec.reqVirt.toNat / 4096 + j) % 2 ^ 36

/-- The frame with number `p` belongs to one of the first `count` descriptors that
    is mapped. -/
def EfiMemmap.MapsFirst (memMap : EfiMemmap) (count p : Nat) : Prop :=
  ∃ i < count, ¬(memMap.desc i).Skipped ∧
    (memMap.desc i).physicalStart.toNat / 4096 ≤ p ∧
    p < (memMap.desc i).physicalStart.toNat / 4096 + (memMap.desc i).numberOfPages.toNat

/-- The frame with number `p` belongs to a descriptor that is mapped. -/
def EfiMemmap.Maps (memMap : EfiMemmap) (p : Nat) : Prop := memMap.MapsFirst memMap.count p

/-- The descriptors are page-aligned and end at or below `2 ^ 47`. -/
structure EfiMemmap.LowHalf (memMap : EfiMemmap) : Prop where
  aligned : ∀ i < memMap.count, (memMap.desc i).physicalStart.toNat % 4096 = 0
  below : ∀ i < memMap.count, (memMap.desc i).physicalStart.toNat +
    4096 * (memMap.desc i).numberOfPages.toNat ≤ 2 ^ 47

theorem foldl_setSection_of_none {secs : List ElfSectioninfo} {M : PageMap} {n : Nat}
    (h : ∀ sec ∈ secs, ∀ j, ¬sec.PageAt n j) : secs.foldl PageMap.setSection M n = M n := by
  induction secs generalizing M with
  | nil => rfl
  | cons sec secs ih =>
    rw [List.foldl_cons, ih fun sec' hsec' => h sec' (List.mem_cons_of_mem _ hsec')]
    exact M.setRange_of_not_mem fun j hj hn => h sec List.mem_cons_self j ⟨hj, hn⟩

/-- A page of a section that neither a later page of the section nor a later
    section is mapped over. -/
theorem addressSpace_section (memMap : EfiMemmap) (before : List ElfSectioninfo)
    {sec : ElfSectioninfo} {after : List ElfSectioninfo} {n j : Nat} (hj : sec.PageAt n j)
    (hlast : sec.pageCount.toNat ≤ j + 2 ^ 36)
    (hafter : ∀ sec' ∈ after, ∀ k, ¬sec'.PageAt n k) :
    addressSpace memMap (before ++ sec :: after) n = some ((sec.phys.toNat / 4096 + j) % 2 ^ 40) := by
  rw [addressSpace, List.foldl_append, List.foldl_cons, foldl_setSection_of_none hafter]
  exact PageMap.setRange_of_mem _ hj.1 hj.2 hlast

theorem addressSpace_of_no_section (memMap : EfiMemmap) {secs : List ElfSectioninfo} {n : Nat}
    (h : ∀ sec ∈ secs, ∀ j, ¬sec.PageAt n j) :
    addressSpace memMap secs n = ramMap memMap memMap.count n :=
  foldl_setSection_of_none h

/-- The page at which the direct map begins. -/
def directMapPage : Nat := 2 ^ 35

theorem directMap_page {start : UINT64} (ha : start.toNat % 4096 = 0) :
    (start + directMapBase).toNat / 4096 % 2 ^ 36 = (start.toNat / 4096 + directMapPage) % 2 ^ 36 := by
  have hbase : directMapBase.toNat = 0xFFFF800000000000 := rfl
  rw [BitVec.toNat_add, hbase, directMapPage]
  omega

/-- What one descriptor does to a page map: it maps each of its frames at two
    pages, and these are in different halves. -/
theorem setDesc_apply {M : PageMap} {desc : EfiMemoryDescriptor} (hskipped : ¬desc.Skipped)
    (ha : desc.physicalStart.toNat % 4096 = 0)
    (hb : desc.physicalStart.toNat + 4096 * desc.numberOfPages.toNat ≤ 2 ^ 47) (n : Nat) :
    M.setDesc desc n =
      if desc.physicalStart.toNat / 4096 ≤ n % directMapPage ∧
          n % directMapPage < desc.physicalStart.toNat / 4096 + desc.numberOfPages.toNat then
        some (n % directMapPage)
      else M n := by
  rw [PageMap.setDesc, if_neg hskipped, directMapPage]
  by_cases hin : desc.physicalStart.toNat / 4096 ≤ n % 2 ^ 35 ∧
      n % 2 ^ 35 < desc.physicalStart.toNat / 4096 + desc.numberOfPages.toNat
  · rw [if_pos hin]
    have hdirect := directMap_page ha
    rw [directMapPage] at hdirect
    have hframe : (desc.physicalStart.toNat / 4096 +
        (n % 2 ^ 35 - desc.physicalStart.toNat / 4096)) % 2 ^ 40 = n % 2 ^ 35 := by omega
    -- the identity mapping, or the direct map in the higher half
    by_cases hhigh : n % 2 ^ 36 < 2 ^ 35
    · rw [PageMap.setRange_of_not_mem _ (by intro j hj; omega),
        PageMap.setRange_of_mem _ (j := n % 2 ^ 35 - desc.physicalStart.toNat / 4096) (by omega)
          (by omega) (by omega), hframe]
    · rw [PageMap.setRange_of_mem _ (j := n % 2 ^ 35 - desc.physicalStart.toNat / 4096) (by omega)
          (by omega) (by omega), hframe]
  · rw [if_neg hin]
    by_cases hempty : desc.numberOfPages.toNat = 0
    · rw [hempty]
      rfl
    · have hdirect := directMap_page ha
      rw [directMapPage] at hdirect
      rw [PageMap.setRange_of_not_mem _ (by intro j hj; omega),
        PageMap.setRange_of_not_mem _ (by intro j hj; omega)]

/-- Below the sections, a page shows the frame it is named after, if that is mapped. -/
theorem ramMap_apply (memMap : EfiMemmap) (hlow : memMap.LowHalf) {count : Nat}
    (hcount : count ≤ memMap.count) (n : Nat) :
    (memMap.MapsFirst count (n % directMapPage) →
      ramMap memMap count n = some (n % directMapPage)) ∧
    (¬memMap.MapsFirst count (n % directMapPage) → ramMap memMap count n = none) := by
  induction count with
  | zero => exact ⟨fun ⟨_, hi, _⟩ => absurd hi (Nat.not_lt_zero _), fun _ => rfl⟩
  | succ count ih =>
    have ih := ih (by omega)
    -- a descriptor of the first `count + 1` is the last one or among the others
    have hold : ∀ i < count + 1, i ≠ count → i < count := fun i hi hne => by omega
    rw [ramMap_succ]
    by_cases hskipped : (memMap.desc count).Skipped
    · rw [PageMap.setDesc, if_pos hskipped]
      refine ⟨fun ⟨i, hi, hns, hin⟩ => ih.1 ⟨i, hold i hi ?_, hns, hin⟩, fun hno => ih.2 ?_⟩
      · rintro rfl
        exact hns hskipped
      · exact fun ⟨i, hi, h⟩ => hno ⟨i, Nat.lt_succ_of_lt hi, h⟩
    · rw [setDesc_apply hskipped (hlow.aligned count (by omega)) (hlow.below count (by omega))]
      constructor
      · rintro ⟨i, hi, hns, hin⟩
        split
        · rfl
        · next hout =>
          refine ih.1 ⟨i, hold i hi ?_, hns, hin⟩
          rintro rfl
          exact hout hin
      · intro hno
        rw [if_neg fun hin => hno ⟨count, Nat.lt_succ_self _, hskipped, hin⟩]
        exact ih.2 fun ⟨i, hi, h⟩ => hno ⟨i, Nat.lt_succ_of_lt hi, h⟩

/-- A mapped frame is in the lower half. -/
theorem EfiMemmap.LowHalf.lt_directMapPage {memMap : EfiMemmap} (hlow : memMap.LowHalf) {p : Nat}
    (hp : memMap.Maps p) : p < directMapPage := by
  obtain ⟨i, hi, _, hlo, hhi⟩ := hp
  have ha := hlow.aligned i hi
  have hb := hlow.below i hi
  rw [directMapPage]
  omega

/-- The page with number `n` shows the frame `p` identity-mapped or in the direct map. -/
def ShowsRam (n p : Nat) : Prop :=
  n % 2 ^ 36 = p ∨ n % 2 ^ 36 = p + directMapPage

theorem showsRam_iff {n p : Nat} (hp : p < directMapPage) :
    ShowsRam n p ↔ n % directMapPage = p := by
  rw [ShowsRam, directMapPage] at *
  omega

theorem addressSpace_ram (memMap : EfiMemmap) (hlow : memMap.LowHalf) {secs : List ElfSectioninfo}
    {n p : Nat} (h : ∀ sec ∈ secs, ∀ j, ¬sec.PageAt n j) (hp : memMap.Maps p)
    (hn : ShowsRam n p) : addressSpace memMap secs n = some p := by
  have hmod := (showsRam_iff (hlow.lt_directMapPage hp)).mp hn
  rw [addressSpace_of_no_section memMap h]
  refine ((ramMap_apply memMap hlow (Nat.le_refl _) n).1 ?_).trans (congrArg some hmod)
  rw [hmod]
  exact hp

theorem addressSpace_none (memMap : EfiMemmap) (hlow : memMap.LowHalf)
    {secs : List ElfSectioninfo} {n : Nat} (h : ∀ sec ∈ secs, ∀ j, ¬sec.PageAt n j)
    (hp : ¬∃ p, memMap.Maps p ∧ ShowsRam n p) : addressSpace memMap secs n = none := by
  rw [addressSpace_of_no_section memMap h]
  refine (ramMap_apply memMap hlow (Nat.le_refl _) n).2 fun hmaps => hp ⟨_, hmaps, ?_⟩
  exact (showsRam_iff (hlow.lt_directMapPage hmaps)).mpr rfl

/-- The address space handed to the kernel: the last section that has a page
    there; else the identity map and the direct map; else nothing. -/
theorem mapMemory_describes {σ : Type} {fw : Firmware} {s s' : Machine σ} {pml4 : UINT64}
    {memMap : EfiMemmap} {loadInfo : ElfLoadinfo} (hfw : fw.SoundPages) (hz : ZeroedPml4 s pml4)
    (hlow : memMap.LowHalf)
    (hcount : loadInfo.sectionCount.toNat = loadInfo.sectionInfos.length)
    (hphys : ∀ sec ∈ loadInfo.sectionInfos,
      sec.phys.toNat + 4096 * sec.pageCount.toNat ≤ 2 ^ 52)
    (hpages : ∀ sec ∈ loadInfo.sectionInfos, sec.pageCount.toNat ≤ 2 ^ 36)
    (hok : mapMemory fw pml4 memMap loadInfo s = .ok () s') (v : UINT64)
    (hv : v.toNat % 4096 = 0) :
    (∀ before sec after j, loadInfo.sectionInfos = before ++ sec :: after →
      sec.PageAt (v.toNat / 4096) j → (∀ sec' ∈ after, ∀ k, ¬sec'.PageAt (v.toNat / 4096) k) →
      translate s'.mem pml4 v = some (BitVec.ofNat 64 (sec.phys.toNat + 4096 * j))) ∧
    ((∀ sec ∈ loadInfo.sectionInfos, ∀ j, ¬sec.PageAt (v.toNat / 4096) j) →
      (∀ p, memMap.Maps p → ShowsRam (v.toNat / 4096) p →
        translate s'.mem pml4 v = some (BitVec.ofNat 64 (4096 * p))) ∧
      ((¬∃ p, memMap.Maps p ∧ ShowsRam (v.toNat / 4096) p) →
        translate s'.mem pml4 v = none)) := by
  obtain ⟨_, _, hmap, haligned⟩ := wp_ok (mapMemory_spec hfw hz memMap loadInfo hcount) hok
  -- translation reads the address space that was built, at a page boundary
  have htranslate : translate s'.mem pml4 v =
      (addressSpace memMap loadInfo.sectionInfos (v.toNat / 4096)).map
        fun f => BitVec.ofNat 64 (4096 * f) := by
    rw [translate_eq_pageMap hz.frame, hmap, pageOffset_of_aligned hv]
    congr 1
    funext f
    exact BitVec.add_zero _
  rw [htranslate]
  refine ⟨?_, fun hno => ⟨fun p hp hn => ?_, fun hp => ?_⟩⟩
  · intro before sec after j hsplit hj hafter
    have hsec : sec ∈ loadInfo.sectionInfos := by
      rw [hsplit]
      exact List.mem_append_right _ List.mem_cons_self
    have hp := (haligned sec hsec).2
    have hend := hphys sec hsec
    have hcount := hpages sec hsec
    have hlt := hj.1
    rw [hsplit, addressSpace_section memMap _ hj (by omega) hafter, Option.map_some]
    congr 2
    omega
  · rw [addressSpace_ram memMap hlow hno hp hn]
    rfl
  · rw [addressSpace_none memMap hlow hno hp]
    rfl

/-- A memory map of one page of conventional memory and one I/O page. -/
def sampleMemmap : EfiMemmap where
  descs := fun i => (leBytes 4 7 ++ leBytes 4 0 ++ leBytes 8 0x2000 ++ leBytes 8 0 ++ leBytes 8 1 ++
    leBytes 8 0 ++ leBytes 8 0 ++ leBytes 4 11 ++ leBytes 4 0 ++ leBytes 8 0x9000 ++ leBytes 8 0 ++
    leBytes 8 1 ++ leBytes 8 0 ++ leBytes 8 0).getD i 0
  size := 96
  descSize := 48

theorem sampleMemmap_lowHalf : sampleMemmap.LowHalf := by
  refine ⟨?_, ?_⟩
  all_goals decide +kernel

/-- A section over the direct map of that page. -/
def sampleLoadinfo : ElfLoadinfo := ⟨0, 1, 0, [⟨0x3000, 0xFFFF800000002000#64, 1, 5⟩]⟩

/-- The identity map still shows the page that the section hides. -/
theorem mapMemory_describes_sample :
    translate (after (mapMemory (Firmware.bump (2 ^ 20)) 0x1000#64 sampleMemmap sampleLoadinfo)
      bareMachine).mem 0x1000#64 0x2000#64 = some 0x2000#64 := by
  have hcount : sampleLoadinfo.sectionCount.toNat = sampleLoadinfo.sectionInfos.length := rfl
  have h := mapMemory_describes (Firmware.bump_soundPages (2 ^ 20) (by decide))
    bareMachine_zeroedPml4 sampleMemmap_lowHalf hcount (by decide) (by decide)
    (eq_ok_of_succeeds (by decide +kernel)) 0x2000#64 rfl
  refine (h.2 ?_).1 2 ⟨0, by decide +kernel⟩ (Or.inl rfl)
  intro sec hsec j hj
  obtain rfl := List.mem_singleton.mp hsec
  obtain ⟨hlt, hpage⟩ := hj
  have hone : (1 : UINT64).toNat = 1 := rfl
  simp only [BitVec.toNat_ofNat, hone] at hlt hpage
  omega

end MidnightOS.Nyxboot
