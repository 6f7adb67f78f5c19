import MidnightOS.Nyxboot.MapMemory
import MidnightOS.Nyxboot.WellFormedElf

/-! # The boot image, end to end

`BootRun` is the part of `efi_main` that loads the kernel and maps it: a load,
then anything that leaves memory in use alone, then `map_memory` on a zeroed
page.  Walking the tables then gives the bytes of the program file.

A segment of more than `2 ^ 48` bytes does not fit the address space, and its
last pages are mapped over its first; `BootRun.byte` is about the pages that are
not mapped over.
-/

namespace MidnightOS.Nyxboot

open MidnightOS.Lib

/-- What was in use at `s` is in use at `s'` and has the same contents. -/
structure Undisturbed {σ σ' : Type} (s : Machine σ) (s' : Machine σ') : Prop where
  kept : ∀ x, InUse s.trace x → InUse s'.trace x
  same : ∀ x, InUse s.trace x → s'.mem x = s.mem x

/-- Page `j` of the segment of `phdr` is at the virtual page with number `n`. -/
def Elf64Phdr.PageAt (phdr : Elf64Phdr) (n j : Nat) : Prop :=
  j < (segmentPages phdr).toNat ∧ n % 2 ^ 36 = (phdr.pVaddr.toNat / 4096 + j) % 2 ^ 36

/-- A boot: the kernel is loaded between `s` and `t`, and mapped between `t'` and
    `u` to the tables at `pml4`. -/
structure BootRun {σ : Type} (fw : Firmware) (file : EfiFile) (memMap : EfiMemmap) (pml4 : UINT64)
    (s t : Machine ElfVars) (t' u : Machine σ) : Prop where
  sound : fw.SoundPages
  wellFormed : file.WellFormed
  disjoint : (loadable file.phdrs).Pairwise fun phdr phdr' =>
    ∀ n j k, phdr.PageAt n j → ¬phdr'.PageAt n k
  opened : s.vars.position = 0
  load : elfLoadFile fw file .discontig s = .ok () t
  undisturbed : Undisturbed t t'
  zeroed : ZeroedPml4 t' pml4
  fresh : ∀ x, x / 4096 = pml4.toNat / 4096 → ¬InUse t.trace x
  map : mapMemory fw pml4 memMap t.vars.info t' = .ok () u

section Boot

variable {σ : Type} {fw : Firmware} {file : EfiFile} {memMap : EfiMemmap} {pml4 : UINT64}
  {s t : Machine ElfVars} {t' u : Machine σ}

/-- What the load left behind, in terms of the file. -/
theorem BootRun.loaded (r : BootRun fw file memMap pml4 s t t' u) :
    LoadRun s t t.vars.info.sectionInfos ∧
      List.Forall₂ (fun phdr sec => (file.segment phdr).HeldBy t.mem sec) (loadable file.phdrs)
        t.vars.info.sectionInfos ∧
      t.vars.info.sectionCount.toNat = t.vars.info.sectionInfos.length := by
  obtain ⟨t₀, ehdr, phdrs, table, _, hinfo, _, hfitting⟩ := elfLoadFileDiscont_ok r.sound r.load
  obtain ⟨_, hphdrs⟩ := hinfo.of_headersInside r.wellFormed.toHeadersInside r.opened
  have hloaded := hfitting fun phdr hphdr => r.wellFormed.segmentFits (hphdrs ▸ hphdr)
  have hheld := hloaded.held.sections
  have hcount := hloaded.held.count
  rw [hheld.length_eq] at hcount
  rw [EfiFile.image, hphdrs, List.forall₂_map_left_iff] at hheld
  exact ⟨hloaded.run.of_fileInfo hinfo, hheld, hcount⟩

theorem BootRun.mapped (r : BootRun fw file memMap pml4 s t t' u) :
    ∃ evs, TableRun (pml4.toNat / 4096) [] t' u evs ∧
      pageMap u.mem (pml4.toNat / 4096) = addressSpace memMap t.vars.info.sectionInfos ∧
      ∀ sec ∈ t.vars.info.sectionInfos,
        sec.reqVirt.toNat % 4096 = 0 ∧ sec.phys.toNat % 4096 = 0 :=
  wp_ok (mapMemory_spec r.sound r.zeroed memMap t.vars.info r.loaded.2.2) r.map

/-- Segments that are mapped begin on a page boundary. -/
theorem BootRun.vaddr_aligned (r : BootRun fw file memMap pml4 s t t' u) {phdr : Elf64Phdr}
    (hphdr : phdr ∈ loadable file.phdrs) : phdr.pVaddr.toNat % 4096 = 0 := by
  obtain ⟨_, _, _, sec, _, _, hsecs, hsec, _⟩ := forall₂_split r.loaded.2.1 hphdr
  obtain ⟨_, _, _, haligned⟩ := r.mapped
  have hmem : sec ∈ t.vars.info.sectionInfos := by
    rw [hsecs]
    exact List.mem_append_right _ List.mem_cons_self
  rw [show phdr.pVaddr = sec.reqVirt from hsec.reqVirt.symm]
  exact (haligned sec hmem).1

/-- What walking the tables of the sections gives for page `j` of a segment, unless a later
    page of that segment is mapped over it.  Memory in use at `t` is as it was. -/
theorem segment_page {mem : Mem} {secs : List ElfSectioninfo} (loaded : LoadRun s t secs)
    (held : List.Forall₂ (fun phdr sec => (file.segment phdr).HeldBy t.mem sec)
      (loadable file.phdrs) secs)
    (disjoint : (loadable file.phdrs).Pairwise fun phdr phdr' =>
      ∀ n j k, phdr.PageAt n j → ¬phdr'.PageAt n k)
    (frame : pml4.toNat = 4096 * (pml4.toNat / 4096))
    (space : pageMap mem (pml4.toNat / 4096) = addressSpace memMap secs)
    (same : ∀ x, InUse t.trace x → mem x = t.mem x) {phdr : Elf64Phdr}
    (hphdr : phdr ∈ loadable file.phdrs) {v : UINT64} {j : Nat}
    (hj : phdr.PageAt (v.toNat / 4096) j) (hlast : (segmentPages phdr).toNat ≤ j + 2 ^ 36) :
    ∃ a, translate mem pml4 v = some a ∧
      mem a.toNat = (file.segment phdr).contents (4096 * j + v.toNat % 4096) := by
  obtain ⟨before, after, secsBefore, sec, secsAfter, hsplit, hsecs, hsec, hafter⟩ :=
    forall₂_split held hphdr
  have hmem : sec ∈ secs := by
    rw [hsecs]
    exact List.mem_append_right _ List.mem_cons_self
  have hpages : sec.pageCount = segmentPages phdr := hsec.pageCount
  have hvirt : sec.reqVirt = phdr.pVaddr := hsec.reqVirt
  -- no later section has a page there
  have hover : ∀ sec' ∈ secsAfter, ∀ k, ¬sec'.PageAt (v.toNat / 4096) k := by
    intro sec' hsec' k hk
    obtain ⟨phdr', hphdr', hheld'⟩ := forall₂_mem_right hafter hsec'
    rw [hsplit, List.pairwise_append] at disjoint
    refine (List.pairwise_cons.mp disjoint.2.1).1 phdr' hphdr' _ j k hj ⟨?_, ?_⟩
    · rw [show segmentPages phdr' = sec'.pageCount from hheld'.pageCount.symm]
      exact hk.1
    · rw [show phdr'.pVaddr = sec'.reqVirt from hheld'.reqVirt.symm]
      exact hk.2
  have hat : sec.PageAt (v.toNat / 4096) j := by
    refine ⟨?_, ?_⟩
    · rw [hpages]
      exact hj.1
    · rw [hvirt]
      exact hj.2
  have hspace := addressSpace_section memMap secsBefore hat
    (by rw [hpages]; exact hlast) hover
  rw [← hsecs, ← space] at hspace
  have hphys := loaded.aligned sec hmem
  have hend := loaded.below sec hmem
  have hlt := hat.1
  have haddr : (BitVec.ofNat 64 (4096 * ((sec.phys.toNat / 4096 + j) % 2 ^ 40)) +
      (v &&& 0xFFF#64)).toNat = sec.phys.toNat + (4096 * j + v.toNat % 4096) := by
    rw [BitVec.toNat_add, BitVec.toNat_ofNat, pageOffset_toNat]
    omega
  refine ⟨_, by rw [translate_eq_pageMap frame, hspace, Option.map_some], ?_⟩
  rw [haddr]
  -- the byte was in use after the load
  have howns : sec.Owns (sec.phys.toNat + (4096 * j + v.toNat % 4096)) := ⟨by omega, by omega⟩
  rw [same _ (loaded.owned sec hmem _ howns)]
  exact hsec.contents _ (by omega)

/-- What walking the tables gives for page `j` of a segment, unless a later page
    of that segment is mapped over it. -/
theorem BootRun.page (r : BootRun fw file memMap pml4 s t t' u) {phdr : Elf64Phdr}
    (hphdr : phdr ∈ loadable file.phdrs) {v : UINT64} {j : Nat}
    (hj : phdr.PageAt (v.toNat / 4096) j) (hlast : (segmentPages phdr).toNat ≤ j + 2 ^ 36) :
    ∃ a, translate u.mem pml4 v = some a ∧
      u.mem a.toNat = (file.segment phdr).contents (4096 * j + v.toNat % 4096) := by
  obtain ⟨hload, hheld, _⟩ := r.loaded
  obtain ⟨evs, hrun, hmap, _⟩ := r.mapped
  refine segment_page hload hheld r.disjoint r.zeroed.frame hmap (fun x huse => ?_) hphdr hj hlast
  -- mapping left it alone
  rw [hrun.mem_eq (r.undisturbed.kept _ huse) ?_, r.undisturbed.same _ huse]
  rw [List.mem_singleton]
  exact fun heq => r.fresh _ heq huse

/-- Every byte of every segment is where the program header wants it, if its page
    is not mapped over by a later page of the same segment. -/
theorem BootRun.byte (r : BootRun fw file memMap pml4 s t t' u) {phdr : Elf64Phdr}
    (hphdr : phdr ∈ loadable file.phdrs) {b : Nat} (hb : b < phdr.pMemsz.toNat)
    (hlast : (segmentPages phdr).toNat ≤ b / 4096 + 2 ^ 36) :
    ∃ a, translate u.mem pml4 (phdr.pVaddr + BitVec.ofNat 64 b) = some a ∧
      u.mem a.toNat =
        if b < phdr.pFilesz.toNat then file.byte (phdr.pOffset.toNat + b) else 0 := by
  have haligned := r.vaddr_aligned hphdr
  have hpages := r.wellFormed.memsz_le hphdr
  have hlt := phdr.pMemsz.isLt
  have hv : (phdr.pVaddr + BitVec.ofNat 64 b).toNat = (phdr.pVaddr.toNat + b) % 2 ^ 64 := by
    rw [BitVec.toNat_add, BitVec.toNat_ofNat, Nat.add_mod_mod]
  have hat : phdr.PageAt ((phdr.pVaddr + BitVec.ofNat 64 b).toNat / 4096) (b / 4096) := by
    refine ⟨by omega, ?_⟩
    rw [hv]
    omega
  obtain ⟨a, ha, hmem⟩ := r.page hphdr hat hlast
  refine ⟨a, ha, ?_⟩
  have hoffset : 4096 * (b / 4096) + (phdr.pVaddr + BitVec.ofNat 64 b).toNat % 4096 = b := by
    rw [hv]
    omega
  rw [hmem, hoffset, r.wellFormed.contents hphdr]

end Boot

/-! ## The page that `efi_main` obtains -/

section Pml4

variable {σ : Type} {fw : Firmware} {s : Machine σ}

/-- `efi_main` obtains the page for `pml4` and zeroes it. -/
def newPml4 (fw : Firmware) : Efi σ UINT64 := do
  let pml4Addr ← allocatePages fw 1
  zeroMem pml4Addr.toNat 0x1000
  return pml4Addr

theorem newPml4_spec (hfw : fw.SoundPages) :
    wp (newPml4 fw) (fun pml4 s' => ZeroedPml4 s' pml4 ∧ Undisturbed s s' ∧
      ∀ x, x / 4096 = pml4.toNat / 4096 → ¬InUse s.trace x) (fun _ _ => True) s := by
  simp only [newPml4, wp_bind, wp_allocatePages, wp_zeroMem, wp_pure]
  refine ⟨fun a hok => ?_, fun _ _ => trivial⟩
  obtain ⟨hpage, _, hunused⟩ := single_page hfw hok
  have hone : (1 : UINTN).toNat = 1 := rfl
  refine ⟨⟨by omega, fun i hi => fill_of_inside (by omega) (by omega), fun i hi => ?_⟩, ⟨fun x hx => ?_,
    fun x hx => fill_of_outside ?_⟩, hunused⟩
  · exact inUse_of_run (by omega) (by rw [hone]; omega)
  · exact InUse.allocatePages hx
  · by_contra hc
    exact hunused x (by omega) hx

/-- The code of `efi_main` boots. -/
theorem BootRun.of_efiMain {file : EfiFile} {memMap : EfiMemmap} {pml4 : UINT64}
    {s t t' u : Machine ElfVars} (hfw : fw.SoundPages) (hwf : file.WellFormed)
    (hdisjoint : (loadable file.phdrs).Pairwise fun phdr phdr' =>
      ∀ n j k, phdr.PageAt n j → ¬phdr'.PageAt n k)
    (hopened : s.vars.position = 0) (hload : elfLoadFile fw file .discontig s = .ok () t)
    (hpml4 : newPml4 fw t = .ok pml4 t')
    (hmap : mapMemory fw pml4 memMap t.vars.info t' = .ok () u) :
    BootRun fw file memMap pml4 s t t' u := by
  obtain ⟨hzeroed, hundisturbed, hfresh⟩ := wp_ok (newPml4_spec hfw) hpml4
  exact ⟨hfw, hwf, hdisjoint, hopened, hload, hundisturbed, hzeroed, hfresh, hmap⟩

end Pml4

theorem newPml4_bump {limit : Nat} (hroom : nextPage s.trace + 4096 ≤ limit) :
    newPml4 (Firmware.bump limit) s =
      .ok (BitVec.ofNat 64 (nextPage s.trace)) (after (newPml4 (Firmware.bump limit)) s) := by
  refine eq_ok_of_wp ?_
  have hgrant : (Firmware.bump limit).allocatePages s.trace 1 =
      .ok (BitVec.ofNat 64 (nextPage s.trace)) := if_pos hroom
  simp only [newPml4, wp_bind, wp_allocatePages, wp_zeroMem, wp_pure, hgrant]
  exact ⟨fun a ha => (Except.ok.inj ha).symm, (fun e he => by cases he)⟩

/-! ## A boot -/

/-- A boot of `file` by a machine with `limit` bytes of memory: after the load,
    with the page obtained, and mapped. -/
def bumpLoaded (limit : Nat) (file : EfiFile) : Machine ElfVars :=
  after (elfLoadFile (Firmware.bump limit) file .discontig) openedMachine

def bumpPml4 (limit : Nat) (file : EfiFile) : UINT64 :=
  BitVec.ofNat 64 (nextPage (bumpLoaded limit file).trace)

def bumpZeroed (limit : Nat) (file : EfiFile) : Machine ElfVars :=
  after (newPml4 (Firmware.bump limit)) (bumpLoaded limit file)

def bumpMapped (limit : Nat) (file : EfiFile) (memMap : EfiMemmap) : Machine ElfVars :=
  after (mapMemory (Firmware.bump limit) (bumpPml4 limit file) memMap
    (bumpLoaded limit file).vars.info) (bumpZeroed limit file)

theorem bump_bootRun {limit : Nat} {file : EfiFile} {memMap : EfiMemmap}
    (hlimit : limit ≤ 2 ^ 52) (hwf : file.WellFormed)
    (hdisjoint : (loadable file.phdrs).Pairwise fun phdr phdr' =>
      ∀ n j k, phdr.PageAt n j → ¬phdr'.PageAt n k)
    (hload : succeeds (elfLoadFile (Firmware.bump limit) file .discontig) openedMachine = true)
    (hroom : nextPage (bumpLoaded limit file).trace + 4096 ≤ limit)
    (hmap : mapMemory (Firmware.bump limit) (bumpPml4 limit file) memMap
      (bumpLoaded limit file).vars.info (bumpZeroed limit file) =
        .ok () (bumpMapped limit file memMap)) :
    BootRun (Firmware.bump limit) file memMap (bumpPml4 limit file) openedMachine
      (bumpLoaded limit file) (bumpZeroed limit file) (bumpMapped limit file memMap) :=
  BootRun.of_efiMain (Firmware.bump_soundPages limit hlimit) hwf hdisjoint rfl
    (eq_ok_of_succeeds hload) (newPml4_bump hroom) hmap

/-- The data come two pages behind the code. -/
theorem sampleElf_disjoint : (loadable sampleElf.phdrs).Pairwise fun phdr phdr' =>
    ∀ n j k, phdr.PageAt n j → ¬phdr'.PageAt n k := by
  have text : (segmentPages textPhdr).toNat = 1 := by decide
  have data : (segmentPages dataPhdr).toNat = 2 := by decide
  have textAt : textPhdr.pVaddr.toNat = 0x400000 := rfl
  have dataAt : dataPhdr.pVaddr.toNat = 0x402000 := rfl
  rw [sampleElf_segments, List.pairwise_pair]
  rintro n j k ⟨inText, atText⟩ ⟨inData, atData⟩
  omega

theorem sample_bootRun :
    BootRun (Firmware.bump (2 ^ 21)) sampleElf sampleMemmap (bumpPml4 (2 ^ 21) sampleElf)
      openedMachine (bumpLoaded (2 ^ 21) sampleElf) (bumpZeroed (2 ^ 21) sampleElf)
      (bumpMapped (2 ^ 21) sampleElf sampleMemmap) :=
  bump_bootRun (by decide) sampleElf_wellFormed sampleElf_disjoint (by decide +kernel)
    (by decide +kernel) (eq_ok_of_succeeds (by decide +kernel))

theorem BootRun.byte_sample :
    ∃ a, translate (bumpMapped (2 ^ 21) sampleElf sampleMemmap).mem (bumpPml4 (2 ^ 21) sampleElf)
      0x402001#64 = some a ∧ (bumpMapped (2 ^ 21) sampleElf sampleMemmap).mem a.toNat = 0xEE := by
  have hphdr : dataPhdr ∈ loadable sampleElf.phdrs := by simp [sampleElf_segments]
  exact sample_bootRun.byte hphdr (b := 1) (by decide) (by decide +kernel)

/-! ## A segment that does not fit the address space -/

/-- Its one segment has a page more than the address space. -/
def hugeElf : EfiFile := ⟨oneSegmentBytes 1 0x1000000001000 [0xAA], by decide +kernel⟩

theorem hugeElf_wellFormed : hugeElf.WellFormed := by
  refine ⟨⟨?_, ?_, ?_, ?_⟩, ?_, ?_, ?_⟩
  all_goals decide +kernel

def emptyMemmap : EfiMemmap := ⟨fun _ => 0, 0, 48⟩

theorem huge_map_succeeds :
    mapMemory (Firmware.bump (2 ^ 52)) (bumpPml4 (2 ^ 52) hugeElf) emptyMemmap
      (bumpLoaded (2 ^ 52) hugeElf).vars.info (bumpZeroed (2 ^ 52) hugeElf) =
        .ok () (bumpMapped (2 ^ 52) hugeElf emptyMemmap) := by
  refine eq_ok_of_wp ?_
  have hinfos : (bumpLoaded (2 ^ 52) hugeElf).vars.info.sectionInfos =
      [⟨0x3000, 0x400000, 0x1000000001, 5⟩] := by decide +kernel
  have hcount : (bumpLoaded (2 ^ 52) hugeElf).vars.info.sectionCount.toNat = 1 := by decide +kernel
  have hdescs : emptyMemmap.count = 0 := by decide
  have hpml4 : bumpPml4 (2 ^ 52) hugeElf ≠ 0 := by decide +kernel
  have hroom : nextPage (bumpZeroed (2 ^ 52) hugeElf).trace +
      (0x1000000001 : UINTN).toNat * 12288 ≤ 2 ^ 52 := by decide +kernel
  -- from here the states are only known by these facts
  generalize (bumpLoaded (2 ^ 52) hugeElf).vars.info = info at *
  generalize bumpPml4 (2 ^ 52) hugeElf = pml4 at *
  generalize bumpZeroed (2 ^ 52) hugeElf = z at *
  simp only [mapMemory, wp_bind, wp_faultIf, hcount, hdescs, forUp, wp_pure, mapSection, hinfos,
    List.getElem?_cons_zero]
  exact ⟨fun h => absurd h (by decide), fun _ =>
    memMapPages_bump (Nat.le_refl _) hpml4 rfl rfl hroom⟩

theorem hugeElf_disjoint : (loadable hugeElf.phdrs).Pairwise fun phdr phdr' =>
    ∀ n j k, phdr.PageAt n j → ¬phdr'.PageAt n k := by
  rw [show loadable hugeElf.phdrs = [oneSegmentPhdr 1 0x1000000001000] by decide +kernel]
  exact List.pairwise_singleton _ _

theorem huge_bootRun :
    BootRun (Firmware.bump (2 ^ 52)) hugeElf emptyMemmap (bumpPml4 (2 ^ 52) hugeElf)
      openedMachine (bumpLoaded (2 ^ 52) hugeElf) (bumpZeroed (2 ^ 52) hugeElf)
      (bumpMapped (2 ^ 52) hugeElf emptyMemmap) :=
  bump_bootRun (Nat.le_refl _) hugeElf_wellFormed hugeElf_disjoint (by decide +kernel)
    (by decide +kernel) huge_map_succeeds

/-- The last page of that segment is mapped over its first: the boot succeeds, and
    byte 0 of the segment is not where the header wants it. -/
theorem huge_segment_wraps :
    BootRun (Firmware.bump (2 ^ 52)) hugeElf emptyMemmap (bumpPml4 (2 ^ 52) hugeElf)
      openedMachine (bumpLoaded (2 ^ 52) hugeElf) (bumpZeroed (2 ^ 52) hugeElf)
      (bumpMapped (2 ^ 52) hugeElf emptyMemmap) ∧
    ∃ phdr ∈ loadable hugeElf.phdrs, ∃ b < phdr.pMemsz.toNat,
      ¬∃ a, translate (bumpMapped (2 ^ 52) hugeElf emptyMemmap).mem (bumpPml4 (2 ^ 52) hugeElf)
          (phdr.pVaddr + BitVec.ofNat 64 b) = some a ∧
        (bumpMapped (2 ^ 52) hugeElf emptyMemmap).mem a.toNat =
          if b < phdr.pFilesz.toNat then hugeElf.byte (phdr.pOffset.toNat + b) else 0 := by
  have hphdr : oneSegmentPhdr 1 0x1000000001000 ∈ loadable hugeElf.phdrs := by decide +kernel
  refine ⟨huge_bootRun, oneSegmentPhdr 1 0x1000000001000, hphdr, 0, by decide, ?_⟩
  rintro ⟨a, ha, hmem⟩
  obtain ⟨a', ha', hmem'⟩ := huge_bootRun.page hphdr (v := 0x400000) (j := 2 ^ 36)
    ⟨by decide +kernel, by decide⟩ (by decide +kernel)
  rw [show (oneSegmentPhdr 1 0x1000000001000).pVaddr + BitVec.ofNat 64 0 = 0x400000 from rfl, ha'] at ha
  obtain rfl := Option.some.inj ha
  rw [hmem', hugeElf_wellFormed.contents hphdr] at hmem
  exact absurd hmem (by decide +kernel)

end MidnightOS.Nyxboot
