import Mathlib.Algebra.Order.BigOperators.Group.List
import Mathlib.Algebra.Order.Ring.Nat
import MidnightOS.Lib.BitFields
import MidnightOS.Nyxboot.LoadDiscont

/-! # Loading segments one after another

The contiguous loader rounds in three ways: the page count of a section, the
advance of the load address, and the size of the buffer.  The first two agree on
every segment; the third agrees with them only up to what the macro
`ALIGN_UP` does to a division (`elfGetSectionSize_toNat`).

`loadContLoop_spec` is for a buffer that has room.
-/

namespace MidnightOS.Nyxboot

open MidnightOS.Lib

/-! ## Rounding -/

/-- The size of a segment and the slack of rounding it, as the code computes it. -/
def slackSize (phdr : Elf64Phdr) : Nat := (phdr.pMemsz.toNat + 4095) % 2 ^ 64

theorem segmentPages_toNat (phdr : Elf64Phdr) :
    (segmentPages phdr).toNat = slackSize phdr / 4096 := by
  have h : phdr.pMemsz + 0x1000 - 1 = phdr.pMemsz + 0xFFF#64 := by
    rw [BitVec.sub_eq_add_neg, BitVec.add_assoc]
    rfl
  rw [segmentPages, h, BitVec.toNat_udiv, BitVec.toNat_add]
  rfl

theorem alignedMemsz_toNat (phdr : Elf64Phdr) :
    (alignedMemsz phdr).toNat = 4096 * (segmentPages phdr).toNat := by
  rw [alignedMemsz, toNat_and_fieldMask 12 52 rfl, BitVec.toNat_add, segmentPages_toNat, slackSize,
    show (0x1000#64 - 1#64).toNat = 4095 from rfl]
  omega

/-- Summing from `start` on, as the loop does. -/
theorem sectionSize_foldl (phdrs : List Elf64Phdr) (start : UINTN) :
    (phdrs.foldl (fun pageCount phdr =>
      if phdr.pType = ptLoad then
        pageCount + ((phdr.pMemsz + (0x1000#64 - 1#64)) &&& ((~~~(0x1000#64 - 1#64)) / 0x1000#64))
      else pageCount) start).toNat =
      (start.toNat + ((loadable phdrs).map fun phdr => slackSize phdr % 2 ^ 52).sum) % 2 ^ 64 := by
  induction phdrs generalizing start with
  | nil => exact (Nat.mod_eq_of_lt start.isLt).symm
  | cons phdr phdrs ih =>
    rw [List.foldl_cons, ih]
    by_cases h : phdr.pType = ptLoad
    · rw [if_pos h, loadable_cons_of_load h, List.map_cons, List.sum_cons, BitVec.toNat_add,
        toNat_and_fieldMask 0 52 rfl, BitVec.toNat_add, slackSize,
        show (0x1000#64 - 1#64).toNat = 4095 from rfl]
      omega
    · rw [if_neg h, loadable_cons_of_not_load h]

/-- The buffer has as many pages as the segments have bytes: the division by the
    page size went into the mask. -/
theorem elfGetSectionSize_toNat (ehdr : Elf64Ehdr) (table : Mem) :
    (elfGetSectionSize ehdr table).toNat =
      ((loadable (phdrTable ehdr table)).map fun phdr => slackSize phdr % 2 ^ 52).sum % 2 ^ 64 := by
  rw [elfGetSectionSize, sectionSize_foldl, show (0 : UINTN).toNat = 0 from rfl, Nat.zero_add]

/-- The pages that the sections of `phdrs` take. -/
def totalPages (phdrs : List Elf64Phdr) : Nat :=
  ((loadable phdrs).map fun phdr => (segmentPages phdr).toNat).sum

theorem totalPages_cons_of_load {phdr : Elf64Phdr} {rest : List Elf64Phdr}
    (h : phdr.pType = ptLoad) :
    totalPages (phdr :: rest) = (segmentPages phdr).toNat + totalPages rest := by
  rw [totalPages, loadable_cons_of_load h, List.map_cons, List.sum_cons, totalPages]

theorem totalPages_cons_of_not_load {phdr : Elf64Phdr} {rest : List Elf64Phdr}
    (h : ¬phdr.pType = ptLoad) : totalPages (phdr :: rest) = totalPages rest := by
  rw [totalPages, loadable_cons_of_not_load h, totalPages]

/-- Where no sum wraps, the buffer has room for every segment. -/
theorem totalPages_le_sectionSize {ehdr : Elf64Ehdr} {table : Mem}
    (hsmall : ∀ phdr ∈ loadable (phdrTable ehdr table), slackSize phdr < 2 ^ 52)
    (hsum : ((loadable (phdrTable ehdr table)).map slackSize).sum < 2 ^ 64) :
    totalPages (phdrTable ehdr table) ≤ (elfGetSectionSize ehdr table).toNat := by
  have hmod : (loadable (phdrTable ehdr table)).map (fun phdr => slackSize phdr % 2 ^ 52) =
      (loadable (phdrTable ehdr table)).map slackSize :=
    List.map_congr_left fun phdr hphdr => Nat.mod_eq_of_lt (hsmall phdr hphdr)
  rw [elfGetSectionSize_toNat, hmod, Nat.mod_eq_of_lt hsum, totalPages]
  refine List.sum_le_sum fun phdr _ => ?_
  rw [segmentPages_toNat]
  omega

/-! ## The loop -/

/-- The sections lie one after another from `base` on. -/
def Contiguous : Nat → List ElfSectioninfo → Prop
  | _, [] => True
  | base, sec :: secs =>
    sec.phys.toNat = base ∧ Contiguous (base + 4096 * sec.pageCount.toNat) secs

section Loop

variable {fw : Firmware} {file : EfiFile} {s : Machine ElfVars}

theorem loadContSegment_spec (index : Nat) {paddr : UINT64} {phdr : Elf64Phdr} {top : Nat}
    (hfits : file.SegmentFits phdr) (hhi : paddr.toNat + 4096 * (segmentPages phdr).toNat ≤ top)
    (hzero : ∀ x, paddr.toNat ≤ x → x < top → s.mem x = 0) :
    wp (loadContSegment fw file index paddr phdr)
      (fun _ s' => (file.segment phdr).HeldBy s'.mem (loadedSection phdr paddr) ∧
        (∀ x, ¬(loadedSection phdr paddr).Owns x → s'.mem x = s.mem x) ∧
        (∃ evs, s'.trace = evs ++ s.trace ∧ obtainedRuns evs = []) ∧
        s'.vars.info = { s.vars.info with
          sectionInfos := s.vars.info.sectionInfos.set index (loadedSection phdr paddr) })
      (fun e _ => FileRefused fw file [phdr] e) s := by
  have hphdr := List.mem_singleton_self phdr
  have hlen : (file.segmentBytes phdr).length ≤ 4096 * (segmentPages phdr).toNat := hfits
  simp only [loadContSegment, wp_bind, wp_setPosition, wp_readPages, setSection, wp_setInfo]
  refine ⟨fun _ => ⟨fun _ => ⟨⟨rfl, rfl, rfl, fun k hk => ?_⟩, fun x hx => ?_, ⟨[_, _], rfl, rfl⟩, rfl⟩,
    fun e hread => ?_⟩, fun e hseek => ?_⟩
  · show blit s.mem paddr.toNat (file.segmentBytes phdr) (paddr.toNat + k) =
      (file.segmentBytes phdr).getD k 0
    have hk' : k < 4096 * (segmentPages phdr).toNat := hk
    -- up to the file size the file, from there on the zeros of the buffer
    rw [← blit_fill_contents (m := s.mem) (a := paddr.toNat) hk']
    by_cases h : k < (file.segmentBytes phdr).length
    · rw [blit_of_inside h, blit_of_inside h]
    · rw [blit_of_outside (by omega), blit_of_outside (by omega), hzero _ (by omega) (by omega),
        fill_of_inside (by omega) (by omega)]
  · show blit s.mem paddr.toNat (file.segmentBytes phdr) x = s.mem x
    refine blit_of_outside ?_
    have hx' : ¬(paddr.toNat ≤ x ∧ x < paddr.toNat + 4096 * (segmentPages phdr).toNat) := hx
    omega
  · exact ⟨phdr, hphdr, _, e, rfl, Or.inr hread⟩
  · exact ⟨phdr, hphdr, _, e, rfl, Or.inl hseek⟩

theorem loadContLoop_spec {top : Nat} (hend : top ≤ 2 ^ 52) (phdrs : List Elf64Phdr) (index : Nat)
    (paddr : UINT64) (hfits : ∀ phdr ∈ loadable phdrs, file.SegmentFits phdr)
    (hhi : paddr.toNat + 4096 * totalPages phdrs ≤ top)
    (hzero : ∀ x, paddr.toNat ≤ x → x < top → s.mem x = 0)
    (hlen : s.vars.info.sectionInfos.length = index + (loadable phdrs).length) :
    wp (loadContLoop fw file index paddr phdrs)
      (fun _ s' => ∃ secs,
        List.Forall₂ (fun seg sec => seg.HeldBy s'.mem sec) ((loadable phdrs).map file.segment) secs ∧
        Contiguous paddr.toNat secs ∧
        (∀ x, x < paddr.toNat ∨ top ≤ x → s'.mem x = s.mem x) ∧
        (∃ evs, s'.trace = evs ++ s.trace ∧ obtainedRuns evs = []) ∧
        s'.vars.info = { s.vars.info with
          sectionInfos := s.vars.info.sectionInfos.take index ++ secs })
      (fun e _ => FileRefused fw file (loadable phdrs) e) s := by
  induction phdrs generalizing index paddr s with
  | nil =>
    refine ⟨[], .nil, trivial, fun _ _ => rfl, ⟨[], rfl, rfl⟩, ?_⟩
    rw [List.append_nil, List.take_of_length_le (show _ ≤ index from Nat.le_of_eq hlen)]
  | cons phdr rest ih =>
    by_cases hload : phdr.pType = ptLoad
    · rw [loadable_cons_of_load hload] at hfits hlen ⊢
      rw [totalPages_cons_of_load hload] at hhi
      rw [List.length_cons] at hlen
      simp only [loadContLoop, if_pos hload, wp_bind]
      have hnext : (paddr + alignedMemsz phdr).toNat =
          paddr.toNat + 4096 * (segmentPages phdr).toNat := by
        rw [BitVec.toNat_add, alignedMemsz_toNat]
        omega
      refine wp_mono (loadContSegment_spec index (hfits phdr List.mem_cons_self) (by omega) hzero)
        ?_ ?_
      · rintro _ t ⟨hheld, hframe, ⟨evs, htrace, hruns⟩, hinfo⟩
        have hbelow : ∀ x, (loadedSection phdr paddr).Owns x ↔
            paddr.toNat ≤ x ∧ x < (paddr + alignedMemsz phdr).toNat := by
          intro x
          rw [hnext]
          rfl
        refine wp_mono (ih (index + 1) (paddr + alignedMemsz phdr)
          (fun p hp => hfits p (List.mem_cons_of_mem _ hp)) (by omega) ?_ ?_) ?_ ?_
        · intro x hx hx'
          rw [hframe x (fun ho => by have := (hbelow x).mp ho; omega)]
          exact hzero x (by omega) hx'
        · rw [hinfo, List.length_set]
          omega
        · rintro _ u ⟨secs, hheld', hcont, hframe', ⟨evs', htrace', hruns'⟩, hinfo'⟩
          refine ⟨loadedSection phdr paddr :: secs, ?_, ⟨rfl, ?_⟩, fun x hx => ?_,
            ⟨evs' ++ evs, ?_, ?_⟩, ?_⟩
          · -- the later segments are read to higher addresses
            refine List.Forall₂.cons (hheld.congr fun x hx => hframe' x (Or.inl ?_)) hheld'
            exact ((hbelow x).mp hx).2
          · rwa [hnext] at hcont
          · rw [hframe' x (by omega), hframe x (fun ho => by have := (hbelow x).mp ho; omega)]
          · rw [htrace', htrace, List.append_assoc]
          · rw [obtainedRuns_append, hruns', hruns, List.append_nil]
          · rw [hinfo', hinfo, take_set_succ _ _ _ (by omega), List.append_assoc]
            rfl
        · exact fun e u he => he.mono fun _ => List.mem_cons_of_mem _
      · exact fun e t he => he.mono (by simp)
    · rw [loadable_cons_of_not_load hload] at hfits hlen ⊢
      rw [totalPages_cons_of_not_load hload] at hhi
      simp only [loadContLoop, if_neg hload]
      exact ih index paddr hfits hhi hzero hlen

end Loop

/-! ## The whole load -/

theorem Contiguous.inside {base : Nat} {secs : List ElfSectioninfo} (h : Contiguous base secs) :
    ∀ sec ∈ secs, base ≤ sec.phys.toNat ∧ sec.phys.toNat + 4096 * sec.pageCount.toNat ≤
      base + 4096 * (secs.map fun sec => sec.pageCount.toNat).sum := by
  induction secs generalizing base with
  | nil => exact fun _ hsec => nomatch hsec
  | cons sec secs ih =>
    obtain ⟨hphys, hrest⟩ := h
    intro sec' hsec'
    rw [List.map_cons, List.sum_cons]
    cases List.mem_cons.mp hsec' with
    | inl heq =>
      subst heq
      omega
    | inr hmem =>
      have := ih hrest sec' hmem
      omega

/-- The sections take as many pages as the segments do. -/
theorem sum_pageCounts {phdrs : List Elf64Phdr} {secs : List ElfSectioninfo}
    (h : List.Forall₂ (fun phdr sec => sec.pageCount = segmentPages phdr) phdrs secs) :
    (secs.map fun sec => sec.pageCount.toNat).sum =
      (phdrs.map fun phdr => (segmentPages phdr).toNat).sum := by
  induction h with
  | nil => rfl
  | cons head tail ih => rw [List.map_cons, List.map_cons, List.sum_cons, List.sum_cons, ih, head]

theorem IsSectionOf.pageCount {phdr : Elf64Phdr} {sec : ElfSectioninfo} (h : IsSectionOf phdr sec) :
    sec.pageCount = segmentPages phdr := by
  rw [h]
  rfl

theorem heldBy_pages {file : EfiFile} {m : Mem} {phdrs : List Elf64Phdr}
    {secs : List ElfSectioninfo}
    (h : List.Forall₂ (fun seg sec => seg.HeldBy m sec) (phdrs.map file.segment) secs) :
    (secs.map fun sec => sec.pageCount.toNat).sum =
      (phdrs.map fun phdr => (segmentPages phdr).toNat).sum :=
  sum_pageCounts ((List.forall₂_map_left_iff.mp h).imp fun _ _ held => held.pageCount)

section File

variable {fw : Firmware} {file : EfiFile} {s s' t : Machine ElfVars} {ehdr : Elf64Ehdr}
  {phdrs : UINT64} {table : Mem}

/-- A contiguous load between `s` and `s'` of the image that `ehdr` and `table`
    describe, to the one run of pages obtained on the way. -/
structure ContLoaded (file : EfiFile) (s s' : Machine ElfVars) (ehdr : Elf64Ehdr) (table : Mem)
    (loadBuffer : UINT64) : Prop where
  held : (file.image ehdr table).HeldBy s'.mem s'.vars.info
  contiguous : Contiguous loadBuffer.toNat s'.vars.info.sectionInfos
  runs : ∃ evs, s'.trace = evs ++ s.trace ∧
    obtainedRuns evs = [(loadBuffer, elfGetSectionSize ehdr table)]
  inside : ∀ sec ∈ s'.vars.info.sectionInfos, loadBuffer.toNat ≤ sec.phys.toNat ∧
    sec.phys.toNat + 4096 * sec.pageCount.toNat ≤
      loadBuffer.toNat + 4096 * (elfGetSectionSize ehdr table).toNat

/-- The machine once the load buffer was obtained and zeroed. -/
def buffered (loadBuffer : UINT64) (pageCount : UINTN) (t : Machine ElfVars) : Machine ElfVars :=
  { t.emit (.allocatePages pageCount (.ok loadBuffer)) with
    mem := fill t.mem loadBuffer.toNat (pageCount * 0x1000).toNat 0
    trace := .store loadBuffer.toNat (pageCount * 0x1000).toNat ::
      .allocatePages pageCount (.ok loadBuffer) :: t.trace }

/-- The loop of the contiguous loader, run on a buffer with room. -/
theorem loadContLoop_loaded {loadBuffer : UINT64}
    (hinfo : GotFileInfo fw file s t ehdr phdrs table)
    (hend : loadBuffer.toNat + 4096 * (elfGetSectionSize ehdr table).toNat ≤ 2 ^ 52)
    (hfits : ∀ phdr ∈ loadable (phdrTable ehdr table), file.SegmentFits phdr)
    (hroom : totalPages (phdrTable ehdr table) ≤ (elfGetSectionSize ehdr table).toNat) :
    wp (loadContLoop fw file 0 loadBuffer (phdrTable ehdr table))
      (fun _ s' => ContLoaded file s s' ehdr table loadBuffer)
      (fun e _ => FileRefused fw file (loadable (phdrTable ehdr table)) e)
      (buffered loadBuffer (elfGetSectionSize ehdr table) t) := by
  -- the buffer is zeroed completely: its size in bytes does not wrap
  have hsize : (elfGetSectionSize ehdr table * 0x1000).toNat =
      4096 * (elfGetSectionSize ehdr table).toNat := by
    rw [BitVec.toNat_mul, show (0x1000 : UINTN).toNat = 4096 from rfl]
    omega
  have hlen : t.vars.info.sectionInfos.length = 0 + (loadable (phdrTable ehdr table)).length := by
    rw [hinfo.infos, List.length_replicate, Nat.zero_add]
  refine wp_mono (loadContLoop_spec hend (phdrTable ehdr table) 0 loadBuffer hfits (by omega)
    (fun x hx hx' => fill_of_inside hx (by rw [hsize]; exact hx')) hlen) ?_
    (fun _ _ he => he)
  rintro _ s' ⟨secs, hheld, hcont, _, ⟨evs, htrace, hruns⟩, hinfos⟩
  have hsecs : s'.vars.info.sectionInfos = secs := by
    rw [hinfos]
    rfl
  refine ⟨⟨?_, ?_, ?_⟩, ?_, ?_, ?_⟩
  · rw [hinfos]
    exact hinfo.entry
  · rw [hinfos]
    exact hinfo.count_toNat
  · rw [hsecs]
    exact hheld
  · rw [hsecs]
    exact hcont
  · refine ⟨evs ++ (.store loadBuffer.toNat (elfGetSectionSize ehdr table * 0x1000).toNat ::
      .allocatePages (elfGetSectionSize ehdr table) (.ok loadBuffer) ::
      fileInfoEvents ehdr table phdrs t.vars.info.sections), ?_, ?_⟩
    · rw [htrace, List.append_assoc, buffered, hinfo.trace]
      rfl
    · rw [obtainedRuns_append, hruns]
      rfl
  · intro sec hsec
    rw [hsecs] at hsec
    -- the sections are laid out in the buffer, which holds them all
    have hin := hcont.inside sec hsec
    rw [heldBy_pages hheld] at hin
    have : ((loadable (phdrTable ehdr table)).map fun phdr => (segmentPages phdr).toNat).sum ≤
        (elfGetSectionSize ehdr table).toNat := hroom
    omega

/-- What the loop leaves in the buffer, the loader returns with.  Freeing on the way out
    keeps the status. -/
theorem elfLoadFileCont_of_loop {Q : UINT64 → Machine ElfVars → Prop} {E : Stop → Prop}
    (hget : elfGetFileInfo fw file s = .ok (ehdr, phdrs, table) t)
    (loop : ∀ loadBuffer, fw.allocatePages t.trace (elfGetSectionSize ehdr table) = .ok loadBuffer →
      wp (loadContLoop fw file 0 loadBuffer (phdrTable ehdr table))
        (fun _ => Q loadBuffer) (fun stop _ => E stop)
        (buffered loadBuffer (elfGetSectionSize ehdr table) t))
    (refused : ∀ e, fw.allocatePages t.trace (elfGetSectionSize ehdr table) = .error e →
      E (.efi e)) :
    wp (elfLoadFileCont fw file)
      (fun _ s' => ∃ loadBuffer,
        fw.allocatePages t.trace (elfGetSectionSize ehdr table) = .ok loadBuffer ∧ Q loadBuffer s')
      (fun stop _ => E stop) s := by
  rw [elfLoadFileCont, wp_bind]
  refine wp_of_ok hget ?_
  simp only [wp_bind, wp_onError, wp_allocatePages, wp_zeroMem]
  refine ⟨fun loadBuffer hok => ?_, fun e hno => ?_⟩
  · refine wp_mono (loop loadBuffer hok) (fun _ _ left => ⟨loadBuffer, hok, left⟩)
      fun stop u failed => ?_
    cases stop with
    | fault => exact failed
    | efi e =>
      simp only [wp_freePages]
      refine wp_mono errFreeLoadInfo_spec (fun _ _ h => h) ?_
      rintro _ _ ⟨rfl, _⟩
      exact failed
  · refine wp_mono errFreeLoadInfo_spec (fun _ _ h => h) ?_
    rintro _ _ ⟨rfl, _⟩
    exact refused e hno

/-- The contiguous loader loads the image of the headers it reads, if the buffer
    has room for it; it stops where a file operation or the buffer is refused. -/
theorem elfLoadFileCont_spec (hfw : fw.SoundPages)
    (hget : elfGetFileInfo fw file s = .ok (ehdr, phdrs, table) t)
    (hfits : ∀ phdr ∈ loadable (phdrTable ehdr table), file.SegmentFits phdr)
    (hroom : totalPages (phdrTable ehdr table) ≤ (elfGetSectionSize ehdr table).toNat) :
    wp (elfLoadFileCont fw file) (fun _ s' => ∃ loadBuffer, ContLoaded file s s' ehdr table loadBuffer)
      (fun stop _ => FileRefused fw file (loadable (phdrTable ehdr table)) stop ∨
        ∃ e, fw.allocatePages t.trace (elfGetSectionSize ehdr table) = .error e) s := by
  have hinfo := wp_ok elfGetFileInfo_spec hget
  refine wp_mono (elfLoadFileCont_of_loop (Q := fun loadBuffer s' => ContLoaded file s s' ehdr table
    loadBuffer) hget (fun loadBuffer hok => ?_) fun e hno => ?_) ?_ (fun _ _ h => h)
  · exact wp_mono (loadContLoop_loaded hinfo (hfw.below _ _ _ hok) hfits hroom)
      (fun _ _ loaded => loaded) fun _ _ refused => Or.inl refused
  · exact Or.inr ⟨e, hno⟩
  · rintro _ _ ⟨loadBuffer, _, loaded⟩
    exact ⟨loadBuffer, loaded⟩

theorem elfLoadFileCont_ok (hfw : fw.SoundPages) (h : elfLoadFileCont fw file s = .ok () s') :
    ∃ t ehdr phdrs table, elfGetFileInfo fw file s = .ok (ehdr, phdrs, table) t ∧
      GotFileInfo fw file s t ehdr phdrs table ∧
      ((∀ phdr ∈ loadable (phdrTable ehdr table), file.SegmentFits phdr) →
        totalPages (phdrTable ehdr table) ≤ (elfGetSectionSize ehdr table).toNat →
        ∃ loadBuffer, ContLoaded file s s' ehdr table loadBuffer) := by
  obtain ⟨⟨ehdr, phdrs, table⟩, t, hget, _⟩ := bind_eq_ok.mp h
  have hinfo := wp_ok elfGetFileInfo_spec hget
  refine ⟨t, ehdr, phdrs, table, hget, hinfo, fun hfits hroom => ?_⟩
  have hloaded := wp_ok (elfLoadFileCont_spec hfw hget hfits hroom) h
  exact hloaded

end File

end MidnightOS.Nyxboot
