import MidnightOS.Nyxboot.WellFormedElf

/-! # The automatic strategy

`elf_load_file` falls back to the discontiguous loader where the contiguous one
fails, but does not go back to the start of the file: the fallback takes its
headers from where the first attempt left the position, after the program header
table.  `auto_loads_iff` says when it loads the program all the same.

The run of the discontiguous loader from the start is what the automatic one is
compared with.  That it succeeds bounds the pages of all segments by the
physical memory, so the buffer of the contiguous attempt has room for them.
-/

namespace MidnightOS.Nyxboot

open MidnightOS.Lib

/-- File operations are answered from the file alone. -/
structure Firmware.StableFile (fw : Firmware) : Prop where
  setPosition : ∀ h h' position, fw.setPosition h position = fw.setPosition h' position
  read : ∀ h h' position size, fw.read h position size = fw.read h' position size

/-- What can be read once is not refused. -/
theorem FileRefused.not_readable {fw : Firmware} {file : EfiFile} {phdrs : List Elf64Phdr}
    {stop : Stop} (hfile : fw.StableFile) (readable : ∀ phdr ∈ phdrs, Readable fw file phdr) :
    ¬FileRefused fw file phdrs stop := by
  rintro ⟨phdr, hphdr, h, e, _, refused⟩
  obtain ⟨⟨h₁, seek⟩, h₂, read⟩ := readable phdr hphdr
  cases refused with
  | inl noSeek =>
    rw [hfile.setPosition h h₁, seek] at noSeek
    cases noSeek
  | inr noRead =>
    rw [hfile.read h h₂, read] at noRead
    cases noRead

section File

variable {fw : Firmware} {file : EfiFile} {s s' t : Machine ElfVars} {ehdr : Elf64Ehdr}
  {phdrs : UINT64} {table : Mem}

/-! ## The buffer has room -/

/-- The section array is in use while segments are loaded. -/
theorem GotFileInfo.sections_inUse (hpool : fw.SoundPool)
    (info : GotFileInfo fw file s t ehdr phdrs table)
    (some : 0 < (loadable (phdrTable ehdr table)).length) :
    t.vars.info.sections.toNat < 2 ^ 52 ∧ InUse t.trace t.vars.info.sections.toNat := by
  obtain ⟨h, granted⟩ := info.granted
  have below := hpool.below _ _ _ granted
  have size : (elfCountLoadable ehdr table * 32).toNat =
      32 * (loadable (phdrTable ehdr table)).length := by
    have hlt := ehdr.ePhnum.isLt
    have hle := length_loadable_le ehdr table
    rw [BitVec.toNat_mul, elfCountLoadable_toNat, show (32 : UINTN).toNat = 32 from rfl]
    omega
  refine ⟨by omega, ?_⟩
  rw [info.trace]
  exact Or.inr ⟨_, List.mem_cons_self, Nat.le_refl _, by omega⟩

/-- So no segment takes all of memory. -/
theorem ElfPlaced.pages_lt (hpool : fw.SoundPool) (info : GotFileInfo fw file s t ehdr phdrs table)
    (placed : ElfPlaced fw file t s' ehdr table) {phdr : Elf64Phdr}
    (hphdr : phdr ∈ loadable (phdrTable ehdr table)) : (segmentPages phdr).toNat < 2 ^ 40 := by
  obtain ⟨_, _, _, sec, _, _, secs, hsec, _⟩ := forall₂_split placed.sections hphdr
  have hmem : sec ∈ s'.vars.info.sectionInfos := by simp [secs]
  have below := placed.run.below sec hmem
  obtain ⟨hlt, inUse⟩ := info.sections_inUse hpool (List.length_pos_of_mem hphdr)
  rw [← hsec.pageCount]
  by_contra full
  exact placed.run.fresh sec hmem _ ⟨by omega, by omega⟩ inUse

theorem ElfPlaced.room (hpool : fw.SoundPool) (info : GotFileInfo fw file s t ehdr phdrs table)
    (placed : ElfPlaced fw file t s' ehdr table) :
    totalPages (phdrTable ehdr table) ≤ (elfGetSectionSize ehdr table).toNat := by
  have slack : ∀ phdr ∈ loadable (phdrTable ehdr table),
      slackSize phdr ≤ 4096 * (segmentPages phdr).toNat + 4095 := by
    intro phdr _
    rw [segmentPages_toNat]
    omega
  -- the pages that were loaded to fit below the top of physical memory
  have total : totalPages (phdrTable ehdr table) ≤ 2 ^ 40 := by
    have := placed.run.sum_pages_le
    rwa [sum_pageCounts (placed.sections.imp fun _ _ hsec => hsec.pageCount)] at this
  apply totalPages_le_sectionSize
  · intro phdr hphdr
    have := slack phdr hphdr
    have := placed.pages_lt hpool info hphdr
    omega
  · have count := length_loadable_le ehdr table
    have hlt := ehdr.ePhnum.isLt
    calc ((loadable (phdrTable ehdr table)).map slackSize).sum
        ≤ ((loadable (phdrTable ehdr table)).map fun phdr =>
            4096 * (segmentPages phdr).toNat + 4095).sum := List.sum_le_sum slack
      _ = 4096 * totalPages (phdrTable ehdr table) +
            4095 * (loadable (phdrTable ehdr table)).length := by
          rw [List.sum_map_add, List.sum_map_mul_left, List.map_const', List.sum_replicate,
            totalPages, Nat.nsmul_eq_mul, Nat.mul_comm 4095]
      _ < 2 ^ 64 := by omega

/-! ## The fallback -/

/-- Where a refused request for the load buffer leaves the machine: what was
    obtained is freed, and the file stands where its headers were read. -/
def bufferRefused (phdrs : UINT64) (pageCount : UINTN) (e : EfiError) (t : Machine ElfVars) :
    Machine ElfVars where
  mem := t.mem
  trace := .freePool phdrs :: .freePool t.vars.info.sections ::
    .allocatePages pageCount (.error e) :: t.trace
  vars := { t.vars with info := { t.vars.info with sectionCount := 0, entry := 0 } }

/-- What the file has for each segment of the headers that are read where `s` stands in the file
    fits the pages of its section. -/
def SegmentsFit (fw : Firmware) (file : EfiFile) (s : Machine ElfVars) : Prop :=
  ∀ ehdr phdrs table t, elfGetFileInfo fw file s = .ok (ehdr, phdrs, table) t →
    ∀ phdr ∈ loadable (phdrTable ehdr table), file.SegmentFits phdr

/-- No segment runs on behind its section: not those that the file begins with, nor those that
    the fallback comes to if the load buffer is refused. -/
structure NothingSpills (fw : Firmware) (file : EfiFile) (s : Machine ElfVars) : Prop where
  first : SegmentsFit fw file s
  fallback : ∀ ehdr phdrs table t e, elfGetFileInfo fw file s = .ok (ehdr, phdrs, table) t →
    fw.allocatePages t.trace (elfGetSectionSize ehdr table) = .error e →
    SegmentsFit fw file (bufferRefused phdrs (elfGetSectionSize ehdr table) e t)

/-- The headers that `elf_get_file_info` reads where `s` stands in the file are
    those of `img`, and the segments can be read. -/
def Describes (fw : Firmware) (file : EfiFile) (s : Machine ElfVars) (img : ElfImage) : Prop :=
  ∃ ehdr phdrs table t, elfGetFileInfo fw file s = .ok (ehdr, phdrs, table) t ∧
    (∀ phdr ∈ loadable (phdrTable ehdr table), Readable fw file phdr) ∧
    file.image ehdr table = img

/-- What a section shows of its header. -/
def Elf64Phdr.outline (phdr : Elf64Phdr) : UINT64 × UINT32 × UINT64 :=
  (phdr.pVaddr, phdr.pFlags, segmentPages phdr)

/-- The headers read where `s` stands are for the sections of `ehdr` and `table`, whatever these
    then hold. -/
def Outlines (fw : Firmware) (file : EfiFile) (s : Machine ElfVars) (ehdr : Elf64Ehdr)
    (table : Mem) : Prop :=
  ∃ ehdr' phdrs' table' t', elfGetFileInfo fw file s = .ok (ehdr', phdrs', table') t' ∧
    (∀ phdr ∈ loadable (phdrTable ehdr' table'), Readable fw file phdr) ∧
    ehdr'.eEntry = ehdr.eEntry ∧ (loadable (phdrTable ehdr' table')).map Elf64Phdr.outline =
      (loadable (phdrTable ehdr table)).map Elf64Phdr.outline

/-- If the load buffer is refused, the headers read from where the file then
    stands are for the same sections. -/
def RefusalOutlined (fw : Firmware) (file : EfiFile) (s : Machine ElfVars) : Prop :=
  ∃ ehdr phdrs table t, elfGetFileInfo fw file s = .ok (ehdr, phdrs, table) t ∧
    ∀ e, fw.allocatePages t.trace (elfGetSectionSize ehdr table) = .error e →
      Outlines fw file (bufferRefused phdrs (elfGetSectionSize ehdr table) e t) ehdr table

/-- If the load buffer is refused, the headers read from where the file then
    stands describe the same image. -/
def RefusalHarmless (fw : Firmware) (file : EfiFile) (s : Machine ElfVars) : Prop :=
  ∃ ehdr phdrs table t, elfGetFileInfo fw file s = .ok (ehdr, phdrs, table) t ∧
    ∀ e, fw.allocatePages t.trace (elfGetSectionSize ehdr table) = .error e →
      Describes fw file (bufferRefused phdrs (elfGetSectionSize ehdr table) e t)
        (file.image ehdr table)

theorem elfLoadFileCont_refused (hpool : fw.SoundPool)
    (hget : elfGetFileInfo fw file s = .ok (ehdr, phdrs, table) t) {e : EfiError}
    (refused : fw.allocatePages t.trace (elfGetSectionSize ehdr table) = .error e) :
    elfLoadFileCont fw file s =
      .error (.efi e) (bufferRefused phdrs (elfGetSectionSize ehdr table) e t) := by
  have info := wp_ok elfGetFileInfo_spec hget
  obtain ⟨_, granted⟩ := info.granted
  have nonnull := hpool.nonnull _ _ _ granted
  apply eq_error_of_wp
  rw [elfLoadFileCont, wp_bind]
  refine wp_of_ok hget ?_
  simp only [wp_bind, wp_onError, wp_allocatePages, refused, reduceCtorEq, false_implies,
    implies_true, true_and, errFreeLoadInfo, elfFreeLoadinfo, wp_get, Machine.emit_vars,
    wp_ite, wp_freePool, wp_setInfo, wp_throw]
  intro _ same
  cases same
  exact ⟨fun _ => ⟨rfl, rfl⟩, fun null => absurd null (not_not_intro nonnull)⟩

/-- What the fallback does, from where the refused request left the machine. -/
theorem elfLoadFile_auto_refused (hpool : fw.SoundPool)
    (hget : elfGetFileInfo fw file s = .ok (ehdr, phdrs, table) t) {e : EfiError}
    (refused : fw.allocatePages t.trace (elfGetSectionSize ehdr table) = .error e) :
    elfLoadFile fw file .auto s =
      elfLoadFileDiscont fw file (bufferRefused phdrs (elfGetSectionSize ehdr table) e t) := by
  have failed := elfLoadFileCont_refused hpool hget refused
  simp only [elfLoadFile, onError, failed]

theorem EfiFile.SegmentFits.padded {phdr : Elf64Phdr} (fits : file.SegmentFits phdr) :
    (file.segment phdr).Padded := by
  intro k beyond
  change (file.segmentBytes phdr).getD k 0 = 0
  have short : (file.segmentBytes phdr).length ≤ k := Nat.le_trans fits beyond
  simp [List.getD_eq_getElem?_getD, List.getElem?_eq_none short]

theorem EfiFile.image_padded
    (fits : ∀ phdr ∈ loadable (phdrTable ehdr table), file.SegmentFits phdr) :
    ∀ seg ∈ (file.image ehdr table).segments, seg.Padded := by
  intro seg hseg
  obtain ⟨phdr, hphdr, rfl⟩ := List.mem_map.mp hseg
  exact (fits phdr hphdr).padded

theorem map_eq_of_forall₂ {α β γ : Type} {R : α → β → Prop} {f : α → γ} {g : β → γ}
    {as : List α} {bs : List β} (h : List.Forall₂ R as bs) (same : ∀ a b, R a b → f a = g b) :
    as.map f = bs.map g := by
  induction h with
  | nil => rfl
  | cons head tail ih => rw [List.map_cons, List.map_cons, same _ _ head, ih]

def ElfSectioninfo.outline (sec : ElfSectioninfo) : UINT64 × UINT32 × UINT64 :=
  (sec.reqVirt, sec.flags, sec.pageCount)

theorem ElfPlaced.outline (placed : ElfPlaced fw file t s' ehdr table) :
    s'.vars.info.sectionInfos.map ElfSectioninfo.outline =
      (loadable (phdrTable ehdr table)).map Elf64Phdr.outline := by
  refine (map_eq_of_forall₂ placed.sections fun phdr sec hsec => ?_).symm
  rw [hsec]
  rfl

theorem SameLoad.outline {w u : Machine ElfVars} (same : SameLoad w u) :
    w.vars.info.sectionInfos.map ElfSectioninfo.outline =
      u.vars.info.sectionInfos.map ElfSectioninfo.outline :=
  map_eq_of_forall₂ same.sections fun _ _ h =>
    Prod.ext h.reqVirt (Prod.ext h.flags h.pageCount)

/-- A segment of the image has its page count in the load info. -/
theorem ElfImage.HeldBy.mem_pages {img : ElfImage} {seg : Segment} {m : Mem} {info : ElfLoadinfo}
    (held : img.HeldBy m info) (hseg : seg ∈ img.segments) :
    ∃ sec ∈ info.sectionInfos, sec.pageCount = seg.pageCount := by
  obtain ⟨_, _, _, sec, _, _, secs, hsec, _⟩ := forall₂_split held.sections hseg
  exact ⟨sec, by simp [secs], hsec.pageCount⟩

/-! ## The automatic strategy -/

/-- The page counts of the requests that were refused. -/
def refusedPages (h : List Event) : List UINTN :=
  h.filterMap fun
    | .allocatePages n (.error _) => some n
    | _ => none

/-- The sizes of the pool requests that were refused. -/
def refusedPools (h : List Event) : List UINTN :=
  h.filterMap fun
    | .allocatePool n (.error _) => some n
    | _ => none

/-- After the contiguous attempt of the automatic strategy, no request for the
    pages of one of `secs` is refused. -/
def SegmentsGranted (fw : Firmware) (file : EfiFile) (s : Machine ElfVars)
    (secs : List ElfSectioninfo) : Prop :=
  ∀ evs, (after (elfLoadFile fw file .auto) s).trace =
    evs ++ (after (elfLoadFileCont fw file) s).trace →
    ∀ sec ∈ secs, sec.pageCount ∉ refusedPages evs

/-- The fallback succeeds on an image that was loaded once. -/
theorem fallback_loads {u v : Machine ElfVars} {img : ElfImage} (hfw : fw.SoundPages)
    (hfile : fw.StableFile) (described : Describes fw file v img) (fit : SegmentsFit fw file v)
    (held : img.HeldBy u.mem u.vars.info)
    (granted : ∀ evs, (after (elfLoadFileDiscont fw file) v).trace = evs ++ v.trace →
      ∀ sec ∈ u.vars.info.sectionInfos, sec.pageCount ∉ refusedPages evs) :
    ∃ w, elfLoadFileDiscont fw file v = .ok () w ∧ img.HeldBy w.mem w.vars.info := by
  obtain ⟨ehdr', phdrs', table', t', hget', readable, rfl⟩ := described
  have info' := wp_ok elfGetFileInfo_spec hget'
  have spec := elfLoadFileDiscont_spec hfw hget'
  cases run : elfLoadFileDiscont fw file v with
  | ok _ w =>
    obtain ⟨_, loaded⟩ := wp_ok spec run
    exact ⟨w, rfl, (loaded (fit _ _ _ _ hget')).held⟩
  | error stop w =>
    exfalso
    obtain ⟨x, evs, htrace, failed⟩ := wp_error spec run
    cases failed with
    | inl refused =>
      -- a refusal of pages was excluded for every section of the other load
      obtain ⟨phdr, hphdr, e, evs', htrace', _, event⟩ := refused
      obtain ⟨sec, hsec, pages⟩ := held.mem_pages (List.mem_map_of_mem hphdr)
      have all : (after (elfLoadFileDiscont fw file) v).trace =
          (evs ++ evs' ++ fileInfoEvents ehdr' table' phdrs' t'.vars.info.sections) ++ v.trace := by
        rw [after_of_error run, htrace, htrace', info'.trace]
        simp
      apply granted _ all sec hsec
      refine List.mem_filterMap.mpr ⟨.allocatePages (segmentPages phdr) (.error e), ?_, ?_⟩
      · simp [event]
      · exact congrArg some pages.symm
    | inr refused => exact refused.not_readable hfile readable

/-- Whatever the segments do to memory, a load by the fallback is of the same sections. -/
theorem refusalOutlined_of_same {u w : Machine ElfVars} (hfw : fw.SoundPages) (hpool : fw.SoundPool)
    (discontig : elfLoadFile fw file .discontig s = .ok () u)
    (auto : elfLoadFile fw file .auto s = .ok () w) (same : SameLoad w u) :
    RefusalOutlined fw file s := by
  obtain ⟨t, ehdr, phdrs, table, hget, _, placed, _⟩ := elfLoadFileDiscont_ok hfw discontig
  refine ⟨ehdr, phdrs, table, t, hget, fun e refused => ?_⟩
  rw [elfLoadFile_auto_refused hpool hget refused] at auto
  obtain ⟨t', ehdr', phdrs', table', hget', _, placed', _⟩ := elfLoadFileDiscont_ok hfw auto
  refine ⟨ehdr', phdrs', table', t', hget', placed'.readable, ?_, ?_⟩
  · rw [← placed'.entry, ← placed.entry]
    exact same.entry
  · rw [← placed'.outline, ← placed.outline]
    exact same.outline

theorem harmless_of_same {u w : Machine ElfVars} (hfw : fw.SoundPages) (hpool : fw.SoundPool)
    (discontig : elfLoadFile fw file .discontig s = .ok () u) (spills : NothingSpills fw file s)
    (auto : elfLoadFile fw file .auto s = .ok () w) (same : SameLoad w u) :
    RefusalHarmless fw file s := by
  obtain ⟨t, ehdr, phdrs, table, hget, _, _, loaded⟩ := elfLoadFileDiscont_ok hfw discontig
  refine ⟨ehdr, phdrs, table, t, hget, fun e refused => ?_⟩
  have fits := spills.first _ _ _ _ hget
  have fallbackFits := spills.fallback _ _ _ _ _ hget refused
  rw [elfLoadFile_auto_refused hpool hget refused] at auto
  obtain ⟨t', ehdr', phdrs', table', hget', _, placed', loaded'⟩ := elfLoadFileDiscont_ok hfw auto
  have fits' := fallbackFits _ _ _ _ hget'
  refine ⟨ehdr', phdrs', table', t', hget', placed'.readable, ?_⟩
  exact (loaded' fits').held.eq_of_same (loaded fits).held same (EfiFile.image_padded fits')
    (EfiFile.image_padded fits)

theorem auto_loads_of_harmless {u : Machine ElfVars} (hfw : fw.SoundPages) (hpool : fw.SoundPool)
    (hfile : fw.StableFile) (discontig : elfLoadFile fw file .discontig s = .ok () u)
    (granted : SegmentsGranted fw file s u.vars.info.sectionInfos) (spills : NothingSpills fw file s)
    (harmless : RefusalHarmless fw file s) :
    ∃ w, elfLoadFile fw file .auto s = .ok () w ∧ SameLoad w u := by
  obtain ⟨t, ehdr, phdrs, table, hget, info, placed, loaded⟩ := elfLoadFileDiscont_ok hfw discontig
  have fits := spills.first _ _ _ _ hget
  have loaded := loaded fits
  obtain ⟨ehdr', phdrs', table', t', hget', harmless⟩ := harmless
  cases hget.symm.trans hget'
  cases answer : fw.allocatePages t.trace (elfGetSectionSize ehdr table) with
  | ok loadBuffer =>
    have spec := elfLoadFileCont_spec hfw hget fits (placed.room hpool info)
    cases run : elfLoadFileCont fw file s with
    | ok _ w =>
      obtain ⟨_, contiguous⟩ := wp_ok spec run
      have auto : elfLoadFile fw file .auto s = .ok () w := by simp only [elfLoadFile, onError, run]
      exact ⟨w, auto, contiguous.held.same loaded.held⟩
    | error stop w =>
      exfalso
      cases wp_error spec run with
      | inl refused => exact refused.not_readable hfile loaded.readable
      | inr refused =>
        obtain ⟨e, refused⟩ := refused
        rw [answer] at refused
        cases refused
  | error e =>
    have auto := elfLoadFile_auto_refused hpool hget answer
    have failed := elfLoadFileCont_refused hpool hget answer
    have requests : ∀ evs, (after (elfLoadFileDiscont fw file)
        (bufferRefused phdrs (elfGetSectionSize ehdr table) e t)).trace =
          evs ++ (bufferRefused phdrs (elfGetSectionSize ehdr table) e t).trace →
        ∀ sec ∈ u.vars.info.sectionInfos, sec.pageCount ∉ refusedPages evs := by
      intro evs htrace
      apply granted
      rw [after_of_error failed, ← htrace]
      simp only [after, auto]
    obtain ⟨w, run, held⟩ := fallback_loads hfw hfile (harmless e answer)
      (spills.fallback _ _ _ _ _ hget answer) loaded.held requests
    exact ⟨w, auto.trans run, held.same loaded.held⟩

/-- Where the discontiguous strategy succeeds and no segment spills, the automatic one loads the
    same program exactly if its buffer is granted, or else the headers at the end of the program
    header table describe that program as well.  Where one spills, it takes at least that those
    headers are for the same sections. -/
theorem auto_loads_iff {u : Machine ElfVars} (hfw : fw.SoundPages) (hpool : fw.SoundPool)
    (hfile : fw.StableFile) (discontig : elfLoadFile fw file .discontig s = .ok () u)
    (granted : SegmentsGranted fw file s u.vars.info.sectionInfos) :
    (NothingSpills fw file s →
      ((∃ w, elfLoadFile fw file .auto s = .ok () w ∧ SameLoad w u) ↔ RefusalHarmless fw file s)) ∧
    ((∃ w, elfLoadFile fw file .auto s = .ok () w ∧ SameLoad w u) → RefusalOutlined fw file s) := by
  refine ⟨fun spills => ⟨?_, auto_loads_of_harmless hfw hpool hfile discontig granted spills⟩, ?_⟩
  · rintro ⟨w, auto, same⟩
    exact harmless_of_same hfw hpool discontig spills auto same
  · rintro ⟨w, auto, same⟩
    exact refusalOutlined_of_same hfw hpool discontig auto same

/-- Where the fallback is refused nothing, it is granted its segments. -/
theorem SegmentsGranted.of_refusedPages_eq {secs : List ElfSectioninfo}
    (h : refusedPages (after (elfLoadFile fw file .auto) s).trace =
      refusedPages (after (elfLoadFileCont fw file) s).trace) : SegmentsGranted fw file s secs := by
  intro evs htrace sec _ refused
  rw [htrace, refusedPages, List.filterMap_append] at h
  have none : refusedPages evs = [] := List.append_left_eq_self.mp h
  rw [none] at refused
  cases refused

end File

/-! ## A machine without room for the buffer -/

theorem Firmware.bump_stableFile (limit : Nat) : (Firmware.bump limit).StableFile :=
  ⟨fun _ _ _ => rfl, fun _ _ _ _ => rfl⟩

/-- The automatic strategy on a machine with 1 MiB of memory. -/
def smallAuto : Machine ElfVars :=
  after (elfLoadFile (Firmware.bump (2 ^ 20)) sampleElf .auto) openedMachine

/-- The discontiguous one on that machine. -/
def smallDiscontig : Machine ElfVars :=
  after (elfLoadFile (Firmware.bump (2 ^ 20)) sampleElf .discontig) openedMachine

theorem smallDiscontig_eq :
    elfLoadFile (Firmware.bump (2 ^ 20)) sampleElf .discontig openedMachine =
      .ok () smallDiscontig :=
  eq_ok_of_succeeds (by decide +kernel)

theorem smallAuto_not_same :
    ¬∃ w, elfLoadFile (Firmware.bump (2 ^ 20)) sampleElf .auto openedMachine = .ok () w ∧
      SameLoad w smallDiscontig := by
  rintro ⟨w, auto, _⟩
  have fails : succeeds (elfLoadFile (Firmware.bump (2 ^ 20)) sampleElf .auto) openedMachine =
      false := by decide +kernel
  rw [succeeds_of_ok auto] at fails
  cases fails

/-- The one request that is refused is the one for the buffer, of 12292 pages: the
    fallback never gets to make a request. -/
theorem auto_strategy_less_capable :
    (Firmware.bump (2 ^ 20)).SoundPages ∧ (Firmware.bump (2 ^ 20)).SoundPool ∧
    (Firmware.bump (2 ^ 20)).StableFile ∧ openedMachine.vars.position = 0 ∧
    elfLoadFile (Firmware.bump (2 ^ 20)) sampleElf .discontig openedMachine =
      .ok () smallDiscontig ∧
    refusedPages smallAuto.trace = [12292] ∧ refusedPools smallAuto.trace = [] ∧
    ¬∃ w, elfLoadFile (Firmware.bump (2 ^ 20)) sampleElf .auto openedMachine = .ok () w ∧
      SameLoad w smallDiscontig :=
  ⟨Firmware.bump_soundPages _ (by decide), Firmware.bump_soundPool _ (by decide),
    Firmware.bump_stableFile _, rfl, smallDiscontig_eq, by decide +kernel, by decide +kernel,
    smallAuto_not_same⟩

/-- Its first segment is longer in the file than its page. -/
def spillingElf : EfiFile :=
  ⟨elfBytes [⟨ptLoad, 5, 176, 0x400000, 5000, 1⟩, ⟨ptLoad, 6, 5176, 0x402000, 1, 5⟩]
    (List.replicate 5000 0xAA ++ [0xBB]), by decide +kernel⟩

def spilled (loadType : ElfLoadtype) : Machine ElfVars :=
  after (elfLoadFile (Firmware.bump (2 ^ 30)) spillingElf loadType) openedMachine

/-- With every request granted the two strategies load different programs: what the first segment
leaves in the second section is zeroed by one loader, and stays there in the other. -/
theorem spilled_loads_differ :
    elfLoadFile (Firmware.bump (2 ^ 30)) spillingElf .discontig openedMachine =
      .ok () (spilled .discontig) ∧
    elfLoadFile (Firmware.bump (2 ^ 30)) spillingElf .auto openedMachine = .ok () (spilled .auto) ∧
    ¬SameLoad (spilled .auto) (spilled .discontig) := by
  refine ⟨eq_ok_of_succeeds (by decide +kernel), eq_ok_of_succeeds (by decide +kernel), fun same => ?_⟩
  have sections := same.sections
  have infos : (spilled .auto).vars.info.sectionInfos =
      [⟨0x3000, 0x400000, 1, 5⟩, ⟨0x4000, 0x402000, 1, 6⟩] := by decide +kernel
  have infos' : (spilled .discontig).vars.info.sectionInfos =
      [⟨0x3000, 0x400000, 1, 5⟩, ⟨0x4000, 0x402000, 1, 6⟩] := by decide +kernel
  rw [infos, infos'] at sections
  cases sections with
  | cons _ rest =>
    cases rest with
    | cons data _ => exact absurd (data.contents 1 (by decide)) (by decide +kernel)

theorem smallRefused_no_headers :
    succeeds (elfGetFileInfo (Firmware.bump (2 ^ 20)) sampleElf)
      (after (elfLoadFileCont (Firmware.bump (2 ^ 20)) sampleElf) openedMachine) = false := by
  decide +kernel

/-- The segments of the file fit, and the fallback finds no headers. -/
theorem small_nothingSpills :
    NothingSpills (Firmware.bump (2 ^ 20)) sampleElf openedMachine := by
  refine ⟨fun ehdr phdrs table t hget phdr hphdr => ?_, fun ehdr phdrs table t e hget refused => ?_⟩
  · obtain ⟨_, headers⟩ := (wp_ok elfGetFileInfo_spec hget).of_headersInside
      sampleElf_wellFormed.toHeadersInside rfl
    exact sampleElf_wellFormed.segmentFits (headers ▸ hphdr)
  · intro ehdr' phdrs' table' t' hget'
    have failed := elfLoadFileCont_refused (Firmware.bump_soundPool _ (by decide)) hget refused
    have none := smallRefused_no_headers
    rw [after_of_error failed, succeeds_of_ok hget'] at none
    cases none

theorem auto_loads_iff_small : ¬RefusalHarmless (Firmware.bump (2 ^ 20)) sampleElf openedMachine :=
  fun harmless => smallAuto_not_same (((auto_loads_iff (Firmware.bump_soundPages _ (by decide))
    (Firmware.bump_soundPool _ (by decide)) (Firmware.bump_stableFile _) smallDiscontig_eq
    (SegmentsGranted.of_refusedPages_eq (by decide +kernel))).1 small_nothingSpills).mpr harmless)

end MidnightOS.Nyxboot
