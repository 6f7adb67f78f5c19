import MidnightOS.Nyxboot.WellFormedElf

/-! # The size of the load buffer

Sizes are rounded up to pages in three places: the page count that
`elf_load_file_cont` records for a section, the advance of its load address, and
`elf_get_section_size`.  Where nothing overflows, the first two are the rounded
size of the segment.  The third is not, since `ALIGN_UP(v, a, t) / a` divides the
mask: `section_size_exact_iff` says for which tables it comes out right.
-/

namespace MidnightOS.Nyxboot

open MidnightOS.Lib

/-! ## What the sizes should be -/

/-- The pages that a segment needs: its size divided by that of a page, rounded up. -/
def memszPages (phdr : Elf64Phdr) : Nat := (phdr.pMemsz.toNat + 4095) / 4096

def roundedPages (segs : List Elf64Phdr) : Nat := (segs.map memszPages).sum

@[simp] theorem roundedPages_nil : roundedPages [] = 0 := rfl

@[simp] theorem roundedPages_cons (phdr : Elf64Phdr) (segs : List Elf64Phdr) :
    roundedPages (phdr :: segs) = memszPages phdr + roundedPages segs := rfl

/-- The load address of `elf_load_file_cont` after the segments `segs`. -/
def loadAddress (paddr : UINT64) (segs : List Elf64Phdr) : UINT64 :=
  segs.foldl (fun paddr phdr => paddr + alignedMemsz phdr) paddr

/-- The sections that it records, from the load address `paddr` on. -/
def recordedSections : UINT64 → List Elf64Phdr → List ElfSectioninfo
  | _, [] => []
  | paddr, phdr :: segs =>
    loadedSection phdr paddr :: recordedSections (paddr + alignedMemsz phdr) segs

/-! ## What the contiguous loader records -/

section Loop

variable {fw : Firmware} {file : EfiFile} {s t : Machine ElfVars} {paddr : UINT64}

theorem loadContLoop_records (phdrs : List Elf64Phdr) (index : Nat)
    (hlen : s.vars.info.sectionInfos.length = index + (loadable phdrs).length) :
    wp (loadContLoop fw file index paddr phdrs)
      (fun _ s' => s'.vars.info.sectionInfos =
        s.vars.info.sectionInfos.take index ++ recordedSections paddr (loadable phdrs))
      (fun _ _ => True) s := by
  induction phdrs generalizing index paddr s with
  | nil =>
    change s.vars.info.sectionInfos = s.vars.info.sectionInfos.take index ++ []
    rw [List.append_nil, List.take_of_length_le (show _ ≤ index from Nat.le_of_eq hlen)]
  | cons phdr rest ih =>
    by_cases hload : phdr.pType = ptLoad
    · rw [loadable_cons_of_load hload] at hlen ⊢
      rw [List.length_cons] at hlen
      simp only [loadContLoop, if_pos hload, loadContSegment, wp_bind, wp_setPosition,
        wp_readPages, setSection, wp_setInfo, implies_true, and_true]
      intro _ _
      refine wp_mono (ih (index + 1) ?_) (fun _ u recorded => ?_) (fun _ _ h => h)
      · change (s.vars.info.sectionInfos.set index _).length = _
        rw [List.length_set]
        omega
      · rw [recorded]
        change (s.vars.info.sectionInfos.set index (loadedSection phdr paddr)).take (index + 1) ++ _ =
          _
        -- the record just written joins those before it
        rw [take_set_succ _ _ _ (by omega), List.append_assoc]
        rfl
    · rw [loadable_cons_of_not_load hload] at hlen ⊢
      simp only [loadContLoop, if_neg hload]
      exact ih index hlen

theorem elfLoadFileCont_records {s' : Machine ElfVars} {ehdr : Elf64Ehdr} {phdrs : UINT64}
    {table : Mem} (hget : elfGetFileInfo fw file s = .ok (ehdr, phdrs, table) t)
    (loaded : elfLoadFileCont fw file s = .ok () s') :
    ∃ loadBuffer, fw.allocatePages t.trace (elfGetSectionSize ehdr table) = .ok loadBuffer ∧
      s'.vars.info.sectionInfos = recordedSections loadBuffer (loadable (phdrTable ehdr table)) := by
  have info := wp_ok elfGetFileInfo_spec hget
  have hlen : t.vars.info.sectionInfos.length = 0 + (loadable (phdrTable ehdr table)).length := by
    rw [info.infos, List.length_replicate, Nat.zero_add]
  have spec := elfLoadFileCont_of_loop (E := fun _ => True) hget
    (fun loadBuffer _ => loadContLoop_records _ 0 hlen) fun _ _ => trivial
  obtain ⟨loadBuffer, granted, recorded⟩ := wp_ok spec loaded
  exact ⟨loadBuffer, granted, recorded⟩

end Loop

/-! ## The sums -/

section Sums

variable {segs : List Elf64Phdr}

theorem segmentPages_eq_memszPages {phdr : Elf64Phdr} (small : 4096 * memszPages phdr < 2 ^ 64) :
    (segmentPages phdr).toNat = memszPages phdr := by
  unfold memszPages at small ⊢
  rw [segmentPages_toNat, slackSize, Nat.mod_eq_of_lt (by omega)]

theorem sum_recordedSections (small : 4096 * roundedPages segs < 2 ^ 64) (paddr : UINT64) :
    ((recordedSections paddr segs).map fun sec => sec.pageCount.toNat).sum = roundedPages segs := by
  induction segs generalizing paddr with
  | nil => rfl
  | cons phdr segs ih =>
    rw [roundedPages_cons] at small
    rw [recordedSections, List.map_cons, List.sum_cons, ih (by omega), roundedPages_cons]
    have head : (loadedSection phdr paddr).pageCount.toNat = memszPages phdr :=
      segmentPages_eq_memszPages (by omega)
    rw [head]

theorem loadAddress_toNat (small : 4096 * roundedPages segs < 2 ^ 64) (paddr : UINT64) :
    (loadAddress paddr segs).toNat = (paddr.toNat + 4096 * roundedPages segs) % 2 ^ 64 := by
  induction segs generalizing paddr with
  | nil => exact (Nat.mod_eq_of_lt paddr.isLt).symm
  | cons phdr segs ih =>
    rw [roundedPages_cons] at small
    change (loadAddress (paddr + alignedMemsz phdr) segs).toNat = _
    rw [ih (by omega), BitVec.toNat_add, alignedMemsz_toNat, segmentPages_eq_memszPages (by omega),
      roundedPages_cons]
    omega

theorem advance_toNat (small : 4096 * roundedPages segs < 2 ^ 64) (paddr : UINT64) :
    (loadAddress paddr segs - paddr).toNat = 4096 * roundedPages segs := by
  have bound := paddr.isLt
  rw [BitVec.toNat_sub, loadAddress_toNat small]
  omega

/-- The bytes that the segments have with the slack, less one for each page. -/
def excess (segs : List Elf64Phdr) : Nat :=
  (segs.map fun phdr => phdr.pMemsz.toNat + 4095 - memszPages phdr).sum

/-- How often the segments with the slack fill the physical address space of `2 ^ 52` bytes. -/
def spaces (segs : List Elf64Phdr) : Nat :=
  (segs.map fun phdr => (phdr.pMemsz.toNat + 4095) / 2 ^ 52).sum

/-- What the code sums, what it should sum, and the difference. -/
theorem sum_slack_eq (segs : List Elf64Phdr) :
    (segs.map fun phdr => slackSize phdr % 2 ^ 52).sum + 2 ^ 52 * spaces segs =
      excess segs + roundedPages segs ∧
    4095 * (segs.length + roundedPages segs) ≤ excess segs + 4095 * roundedPages segs ∧
    excess segs ≤ 4095 * (segs.length + roundedPages segs) := by
  induction segs with
  | nil => simp [spaces, excess]
  | cons phdr segs ih =>
    simp only [spaces, excess, List.map_cons, List.sum_cons, roundedPages_cons, List.length_cons,
      slackSize, memszPages] at ih ⊢
    omega

/-- The table has no segments, or one that does not fit in physical memory and
    sizes that happen to make up for it. -/
def Coincides (segs : List Elf64Phdr) : Prop :=
  segs = [] ∨ (∃ phdr ∈ segs, 2 ^ 52 ≤ phdr.pMemsz.toNat + 4095) ∧
    excess segs = 2 ^ 52 * spaces segs

theorem spaces_eq_zero (small : ∀ phdr ∈ segs, phdr.pMemsz.toNat + 4095 < 2 ^ 52) :
    spaces segs = 0 := by
  induction segs with
  | nil => rfl
  | cons phdr segs ih =>
    rw [List.forall_mem_cons] at small
    have rest := ih small.2
    simp only [spaces, List.map_cons, List.sum_cons] at rest ⊢
    omega

theorem sum_slack_eq_iff (small : 4096 * roundedPages segs < 2 ^ 64) (count : segs.length < 2 ^ 16) :
    (segs.map fun phdr => slackSize phdr % 2 ^ 52).sum % 2 ^ 64 = roundedPages segs ↔
      Coincides segs := by
  obtain ⟨total, lower, upper⟩ := sum_slack_eq segs
  constructor
  · intro exact
    cases segs with
    | nil => exact Or.inl rfl
    | cons phdr rest =>
      -- the sum is less than twice the range of the counter
      have same : excess (phdr :: rest) = 2 ^ 52 * spaces (phdr :: rest) := by omega
      refine Or.inr ⟨?_, same⟩
      by_contra none
      have all : ∀ p ∈ phdr :: rest, p.pMemsz.toNat + 4095 < 2 ^ 52 :=
        fun p hp => Nat.lt_of_not_le fun large => none ⟨p, hp, large⟩
      have zero := spaces_eq_zero all
      rw [List.length_cons] at lower
      omega
  · intro coincides
    cases coincides with
    | inl empty =>
      subst empty
      rfl
    | inr large => omega

end Sums

/-! ## When the buffer has the right size -/

/-- `elf_get_section_size` returns the rounded sum, which in every load that reads
    the table is the sum of the recorded page counts, and the advance in pages. -/
def SectionSizeExact (ehdr : Elf64Ehdr) (table : Mem) : Prop :=
  (elfGetSectionSize ehdr table).toNat = roundedPages (loadable (phdrTable ehdr table)) ∧
  ∀ fw file s t s' phdrs, elfGetFileInfo fw file s = .ok (ehdr, phdrs, table) t →
    elfLoadFileCont fw file s = .ok () s' →
    ∃ loadBuffer, fw.allocatePages t.trace (elfGetSectionSize ehdr table) = .ok loadBuffer ∧
      s'.vars.info.sectionInfos = recordedSections loadBuffer (loadable (phdrTable ehdr table)) ∧
      (s'.vars.info.sectionInfos.map fun sec => sec.pageCount.toNat).sum =
        roundedPages (loadable (phdrTable ehdr table)) ∧
      (loadAddress loadBuffer (loadable (phdrTable ehdr table)) - loadBuffer).toNat =
        4096 * roundedPages (loadable (phdrTable ehdr table))

theorem section_size_exact_iff {ehdr : Elf64Ehdr} {table : Mem}
    (small : 4096 * roundedPages (loadable (phdrTable ehdr table)) < 2 ^ 64) :
    SectionSizeExact ehdr table ↔ Coincides (loadable (phdrTable ehdr table)) := by
  have count : (loadable (phdrTable ehdr table)).length < 2 ^ 16 :=
    Nat.lt_of_le_of_lt (length_loadable_le ehdr table) ehdr.ePhnum.isLt
  rw [← sum_slack_eq_iff small count, ← elfGetSectionSize_toNat]
  refine ⟨fun exact => exact.1, fun size => ⟨size, fun fw file s t s' phdrs hget loaded => ?_⟩⟩
  obtain ⟨loadBuffer, granted, recorded⟩ := elfLoadFileCont_records hget loaded
  refine ⟨loadBuffer, granted, recorded, ?_, advance_toNat small loadBuffer⟩
  rw [recorded]
  exact sum_recordedSections small loadBuffer

/-- The program header table of `sampleElf`, whose segments need one page and two. -/
def sampleTable : Mem := fun i => sampleElf.byte (64 + i)

theorem sampleTable_segments :
    loadable (phdrTable sampleElf.ehdr sampleTable) = [textPhdr, dataPhdr] := by decide +kernel

/-- 12292 pages for two segments that need three. -/
theorem section_size_counts_bytes :
    roundedPages (loadable (phdrTable sampleElf.ehdr sampleTable)) = 3 ∧
    elfGetSectionSize sampleElf.ehdr sampleTable = 12292 ∧
    ¬SectionSizeExact sampleElf.ehdr sampleTable := by
  have rounded : roundedPages (loadable (phdrTable sampleElf.ehdr sampleTable)) = 3 := by
    rw [sampleTable_segments]
    decide
  have size : elfGetSectionSize sampleElf.ehdr sampleTable = 12292 := by decide +kernel
  refine ⟨rounded, size, fun exact => ?_⟩
  have equal := exact.1
  rw [rounded, size] at equal
  exact absurd equal (by decide)

theorem section_size_exact_iff_sample :
    SectionSizeExact sampleElf.ehdr sampleTable ↔ Coincides [textPhdr, dataPhdr] := by
  rw [← sampleTable_segments]
  exact section_size_exact_iff (by rw [sampleTable_segments]; decide)

end MidnightOS.Nyxboot
