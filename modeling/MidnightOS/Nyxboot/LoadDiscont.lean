import MidnightOS.Nyxboot.ElfImage

/-! # Loading segments to pages of their own

`loadDiscontLoop_spec` says what the loop of `elf_load_file_discont` brings
about: each section in a fresh run of pages and, where the segments fit their
pages, memory in use before untouched.  Where the loop stops early, `LoadFailed` says why.
-/

namespace MidnightOS.Nyxboot

open MidnightOS.Lib

/-! ## Outcomes of a load -/

/-- The bytes that the file has for a segment fit its pages. -/
def EfiFile.SegmentFits (file : EfiFile) (phdr : Elf64Phdr) : Prop :=
  (file.segmentBytes phdr).length ≤ 4096 * (segmentPages phdr).toNat

/-- The segment can be read. -/
structure Readable (fw : Firmware) (file : EfiFile) (phdr : Elf64Phdr) : Prop where
  seek : ∃ h, fw.setPosition h phdr.pOffset = .ok ()
  read : ∃ h, fw.read h (file.seek phdr.pOffset) phdr.pFilesz = .ok ()

/-- A file operation for one of `phdrs` was refused. -/
def FileRefused (fw : Firmware) (file : EfiFile) (phdrs : List Elf64Phdr) (stop : Stop) : Prop :=
  ∃ phdr ∈ phdrs, ∃ h e, stop = .efi e ∧ (fw.setPosition h phdr.pOffset = .error e ∨
    fw.read h (file.seek phdr.pOffset) phdr.pFilesz = .error e)

/-- Why loading some of `phdrs` from `s` on stopped at `s'`: a request for the
    pages of one was refused, or a file operation was. -/
def LoadFailed (fw : Firmware) (file : EfiFile) (phdrs : List Elf64Phdr) (s : Machine ElfVars)
    (stop : Stop) (s' : Machine ElfVars) : Prop :=
  (∃ phdr ∈ phdrs, ∃ e evs, s'.trace = evs ++ s.trace ∧ stop = .efi e ∧
    Event.allocatePages (segmentPages phdr) (.error e) ∈ evs) ∨
  FileRefused fw file phdrs stop

theorem FileRefused.mono {fw : Firmware} {file : EfiFile} {phdrs phdrs' : List Elf64Phdr}
    {stop : Stop} (hsub : phdrs ⊆ phdrs') (h : FileRefused fw file phdrs stop) :
    FileRefused fw file phdrs' stop := by
  obtain ⟨p, hp, h⟩ := h
  exact ⟨p, hsub hp, h⟩

/-- A failure of some headers, later in the run, is one of all the headers. -/
theorem LoadFailed.mono {fw : Firmware} {file : EfiFile} {phdrs phdrs' : List Elf64Phdr}
    {stop : Stop} {s t s' : Machine ElfVars} (htrace : ∃ evs, t.trace = evs ++ s.trace)
    (hsub : phdrs ⊆ phdrs') (h : LoadFailed fw file phdrs t stop s') :
    LoadFailed fw file phdrs' s stop s' := by
  cases h with
  | inl hpages =>
    obtain ⟨phdr, hphdr, e, evs, hevs, hstop, hmem⟩ := hpages
    obtain ⟨evs', hevs'⟩ := htrace
    refine Or.inl ⟨phdr, hsub hphdr, e, evs ++ evs', ?_, hstop, List.mem_append_left _ hmem⟩
    rw [hevs, hevs', List.append_assoc]
  | inr hrefused => exact Or.inr (hrefused.mono hsub)

/-- Between `s` and `s'` the sections `secs` got pages that were not in use before; what was in
    use before still is. -/
structure PagesRun (s s' : Machine ElfVars) (secs : List ElfSectioninfo) : Prop where
  trace : ∃ evs, s'.trace = evs ++ s.trace
  kept : ∀ x, InUse s.trace x → InUse s'.trace x
  owned : ∀ sec ∈ secs, ∀ x, sec.Owns x → InUse s'.trace x
  fresh : ∀ sec ∈ secs, ∀ x, sec.Owns x → ¬InUse s.trace x
  disjoint : secs.Pairwise fun sec sec' => ∀ x, sec.Owns x → ¬sec'.Owns x
  aligned : ∀ sec ∈ secs, sec.phys.toNat % 4096 = 0
  below : ∀ sec ∈ secs, sec.phys.toNat + 4096 * sec.pageCount.toNat ≤ 2 ^ 52

/-- And what was in use before is unchanged. -/
structure LoadRun (s s' : Machine ElfVars) (secs : List ElfSectioninfo) : Prop
    extends PagesRun s s' secs where
  frame : ∀ x, InUse s.trace x → s'.mem x = s.mem x

theorem PagesRun.refl (s : Machine ElfVars) : PagesRun s s [] :=
  ⟨⟨[], rfl⟩, fun _ h => h, by simp, by simp, .nil, by simp, by simp⟩

theorem PagesRun.trans {s t u : Machine ElfVars} {sec : ElfSectioninfo} {secs : List ElfSectioninfo}
    (h : PagesRun s t [sec]) (h' : PagesRun t u secs) : PagesRun s u (sec :: secs) := by
  have hsec := List.mem_singleton_self sec
  obtain ⟨evs, htrace⟩ := h.trace
  obtain ⟨evs', htrace'⟩ := h'.trace
  refine ⟨⟨evs' ++ evs, by rw [htrace', htrace, List.append_assoc]⟩,
    fun x hx => h'.kept x (h.kept x hx), ?_, ?_,
    List.Pairwise.cons (fun sec' hmem x hx hx' => ?_) h'.disjoint, ?_, ?_⟩
  · intro sec' hmem x hx
    cases List.mem_cons.mp hmem with
    | inl heq => exact h'.kept x (h.owned sec hsec x (heq ▸ hx))
    | inr hmem => exact h'.owned sec' hmem x hx
  · intro sec' hmem x hx huse
    cases List.mem_cons.mp hmem with
    | inl heq => exact h.fresh sec hsec x (heq ▸ hx) huse
    | inr hmem => exact h'.fresh sec' hmem x hx (h.kept x huse)
  · -- later pages are fresh, so apart from those of the first section
    exact h'.fresh sec' hmem x hx' (h.owned sec hsec x hx)
  · intro sec' hmem
    cases List.mem_cons.mp hmem with
    | inl heq => exact heq ▸ h.aligned sec hsec
    | inr hmem => exact h'.aligned sec' hmem
  · intro sec' hmem
    cases List.mem_cons.mp hmem with
    | inl heq => exact heq ▸ h.below sec hsec
    | inr hmem => exact h'.below sec' hmem

/-- There are pages of physical memory for them all. -/
theorem PagesRun.sum_pages_le {s s' : Machine ElfVars} {secs : List ElfSectioninfo}
    (run : PagesRun s s' secs) : (secs.map fun sec => sec.pageCount.toNat).sum ≤ 2 ^ 40 := by
  -- the runs are disjoint and end below the top of physical memory
  have total : ((secs.map fun sec => (sec.phys, sec.pageCount)).map fun r => r.2.toNat).sum ≤
      2 ^ 40 := by
    apply sum_runs_le
    · exact List.forall_mem_map.mpr run.below
    · rw [List.pairwise_map]
      exact run.disjoint.imp fun apart x lo hi inside => apart x ⟨lo, hi⟩ inside
  rwa [List.map_map] at total

/-! ## One segment -/

/-- What the pages of a segment hold after they were zeroed and read into. -/
theorem blit_fill_contents {m : Mem} {a n k : Nat} {bytes : List Byte} (hk : k < n) :
    blit (fill m a n 0) a bytes (a + k) = bytes.getD k 0 := by
  by_cases h : k < bytes.length
  · rw [blit_of_inside h, List.getD_eq_getElem?_getD, List.getElem?_eq_getElem h]
    rfl
  · rw [blit_of_outside (by omega), fill_of_inside (by omega) (by omega),
      List.getD_eq_getElem?_getD, List.getElem?_eq_none (by omega)]
    rfl

/-- The section that loading `phdr` to `paddr` makes. -/
def loadedSection (phdr : Elf64Phdr) (paddr : UINT64) : ElfSectioninfo where
  phys := paddr
  reqVirt := phdr.pVaddr
  pageCount := segmentPages phdr
  flags := phdr.pFlags

section Segment

variable {fw : Firmware} {file : EfiFile} {s : Machine ElfVars}

theorem inUse_of_run {h : List Event} {n : UINTN} {a : UINT64} {x : Nat} (hlo : a.toNat ≤ x)
    (hhi : x < a.toNat + 4096 * n.toNat) : InUse (.allocatePages n (.ok a) :: h) x :=
  Or.inl (Or.inl ⟨hlo, hhi⟩)

theorem InUse.allocatePages {h : List Event} {n : UINTN} {a : UINT64} {x : Nat}
    (huse : InUse h x) : InUse (.allocatePages n (.ok a) :: h) x := by
  cases huse with
  | inl hpages => exact Or.inl (Or.inr hpages)
  | inr hpool => exact Or.inr hpool

/-- A segment that fits its pages changes no memory that was in use. -/
theorem loadDiscontSegment_spec (hfw : fw.SoundPages) (index : Nat) (phdr : Elf64Phdr) :
    wp (loadDiscontSegment fw file index phdr)
      (fun _ s' => ∃ paddr, Readable fw file phdr ∧ PagesRun s s' [loadedSection phdr paddr] ∧
        (file.SegmentFits phdr → (∀ x, InUse s.trace x → s'.mem x = s.mem x) ∧
          (file.segment phdr).HeldBy s'.mem (loadedSection phdr paddr)) ∧
        s'.vars.info = { s.vars.info with
          sectionInfos := s.vars.info.sectionInfos.set index (loadedSection phdr paddr) })
      (fun e s' => LoadFailed fw file [phdr] s e s') s := by
  have hphdr := List.mem_singleton_self phdr
  simp only [loadDiscontSegment, wp_bind, wp_allocatePages, wp_zeroMem, wp_setPosition,
    wp_readPages, setSection, wp_setInfo]
  refine ⟨fun paddr hok => ⟨fun hseek => ⟨fun hread => ?_, fun e hread => ?_⟩, fun e hseek => ?_⟩,
    fun e _ => Or.inl ⟨phdr, hphdr, e, [_], rfl, rfl, List.mem_singleton_self _⟩⟩
  · have hbelow := hfw.below _ _ _ hok
    have hsize : (segmentPages phdr * 0x1000).toNat = 4096 * (segmentPages phdr).toNat := by
      rw [BitVec.toNat_mul, show (0x1000 : UINTN).toNat = 4096 from rfl]
      omega
    refine ⟨paddr, ⟨⟨_, hseek⟩, ⟨_, hread⟩⟩, ⟨⟨[_, _, _, _], rfl⟩, ?_, ?_, ?_,
      List.pairwise_singleton _ _, ?_, ?_⟩, fun hfits => ⟨?_, ⟨rfl, rfl, rfl, ?_⟩⟩, rfl⟩
    · exact fun x hx => InUse.allocatePages hx
    · intro sec hsec x hx
      obtain rfl := List.mem_singleton.mp hsec
      exact inUse_of_run hx.1 hx.2
    · intro sec hsec x hx
      obtain rfl := List.mem_singleton.mp hsec
      exact hfw.fresh _ _ _ hok x hx.1 hx.2
    · intro sec hsec
      obtain rfl := List.mem_singleton.mp hsec
      exact hfw.aligned _ _ _ hok
    · intro sec hsec
      obtain rfl := List.mem_singleton.mp hsec
      exact hbelow
    · intro x hx
      -- memory in use before lies outside the new run
      have hout : x < paddr.toNat ∨ paddr.toNat + 4096 * (segmentPages phdr).toNat ≤ x := by
        by_contra hc
        exact hfw.fresh _ _ _ hok x (by omega) (by omega) hx
      refine (blit_of_outside ?_).trans (fill_of_outside ?_)
      · have : (file.segmentBytes phdr).length ≤ 4096 * (segmentPages phdr).toNat := hfits
        show _ ∨ paddr.toNat + (file.segmentBytes phdr).length ≤ x
        omega
      · rwa [hsize]
    · intro k hk
      show blit (fill s.mem paddr.toNat (segmentPages phdr * 0x1000).toNat 0) paddr.toNat
        (file.segmentBytes phdr) (paddr.toNat + k) = _
      rw [hsize]
      exact blit_fill_contents hk
  · exact Or.inr ⟨phdr, hphdr, _, e, rfl, Or.inr hread⟩
  · exact Or.inr ⟨phdr, hphdr, _, e, rfl, Or.inl hseek⟩

/-! ## The loop -/

theorem take_set_succ {α : Type} (l : List α) (i : Nat) (a : α) (h : i < l.length) :
    (l.set i a).take (i + 1) = l.take i ++ [a] := by
  rw [List.take_add_one, List.take_set_of_le (Nat.le_refl i), List.getElem?_set_self h]
  rfl

/-- `sec` is the section of `phdr`, wherever it is. -/
def IsSectionOf (phdr : Elf64Phdr) (sec : ElfSectioninfo) : Prop := sec = loadedSection phdr sec.phys

theorem loadDiscontLoop_spec (hfw : fw.SoundPages) (phdrs : List Elf64Phdr) (index : Nat)
    (hlen : s.vars.info.sectionInfos.length = index + (loadable phdrs).length) :
    wp (loadDiscontLoop fw file index phdrs)
      (fun _ s' => ∃ secs, PagesRun s s' secs ∧ List.Forall₂ IsSectionOf (loadable phdrs) secs ∧
        (∀ phdr ∈ loadable phdrs, Readable fw file phdr) ∧
        ((∀ phdr ∈ loadable phdrs, file.SegmentFits phdr) →
          (∀ x, InUse s.trace x → s'.mem x = s.mem x) ∧
          List.Forall₂ (fun seg sec => seg.HeldBy s'.mem sec) ((loadable phdrs).map file.segment)
            secs) ∧
        s'.vars.info = { s.vars.info with
          sectionInfos := s.vars.info.sectionInfos.take index ++ secs })
      (fun e s' => LoadFailed fw file (loadable phdrs) s e s') s := by
  induction phdrs generalizing index s with
  | nil =>
    refine ⟨[], PagesRun.refl s, .nil, by simp [loadable], fun _ => ⟨fun _ _ => rfl, .nil⟩, ?_⟩
    rw [List.append_nil, List.take_of_length_le (show _ ≤ index from Nat.le_of_eq hlen)]
  | cons phdr rest ih =>
    by_cases hload : phdr.pType = ptLoad
    · rw [loadable_cons_of_load hload] at hlen ⊢
      rw [List.length_cons] at hlen
      simp only [loadDiscontLoop, if_pos hload, wp_bind]
      refine wp_mono (loadDiscontSegment_spec hfw index phdr) ?_ ?_
      · rintro _ t ⟨paddr, hreadable, hrun, hmem, hinfo⟩
        have hlen' : t.vars.info.sectionInfos.length = index + 1 + (loadable rest).length := by
          rw [hinfo, List.length_set]
          omega
        refine wp_mono (ih (index + 1) hlen') ?_ ?_
        · rintro _ u ⟨secs, hrun', hsecs, hreadable', hmem', hinfo'⟩
          refine ⟨loadedSection phdr paddr :: secs, hrun.trans hrun', .cons rfl hsecs, ?_, ?_, ?_⟩
          · exact List.forall_mem_cons.mpr ⟨hreadable, hreadable'⟩
          · rw [List.forall_mem_cons]
            rintro ⟨hfits, hfits'⟩
            obtain ⟨hframe, hheld⟩ := hmem hfits
            obtain ⟨hframe', hheld'⟩ := hmem' hfits'
            refine ⟨fun x hx => ?_, ?_⟩
            · rw [hframe' x (hrun.kept x hx), hframe x hx]
            · -- the later segments leave the pages of this one alone
              refine List.Forall₂.cons (hheld.congr fun x hx => hframe' x ?_) hheld'
              exact hrun.owned _ (List.mem_singleton_self _) x hx
          · rw [hinfo', hinfo, take_set_succ _ _ _ (by omega), List.append_assoc]
            rfl
        · exact fun e u he => he.mono hrun.trace fun _ => List.mem_cons_of_mem _
      · exact fun e t he => he.mono ⟨[], rfl⟩ (by simp)
    · rw [loadable_cons_of_not_load hload] at hlen ⊢
      simp only [loadDiscontLoop, if_neg hload]
      exact ih index hlen

end Segment

/-! ## The whole load -/

/-- The sections that `ehdr` and `table` describe were loaded between `t` and `s'`, each to pages
    of its own. -/
structure ElfPlaced (fw : Firmware) (file : EfiFile) (t s' : Machine ElfVars) (ehdr : Elf64Ehdr)
    (table : Mem) : Prop where
  run : PagesRun t s' s'.vars.info.sectionInfos
  entry : s'.vars.info.entry = ehdr.eEntry
  count : s'.vars.info.sectionCount.toNat = (loadable (phdrTable ehdr table)).length
  sections : List.Forall₂ IsSectionOf (loadable (phdrTable ehdr table)) s'.vars.info.sectionInfos
  readable : ∀ phdr ∈ loadable (phdrTable ehdr table), Readable fw file phdr

/-- A load between `t` and `s'` of the image that `ehdr` and `table` describe. -/
structure ElfLoaded (fw : Firmware) (file : EfiFile) (t s' : Machine ElfVars) (ehdr : Elf64Ehdr)
    (table : Mem) : Prop where
  run : LoadRun t s' s'.vars.info.sectionInfos
  held : (file.image ehdr table).HeldBy s'.mem s'.vars.info
  readable : ∀ phdr ∈ loadable (phdrTable ehdr table), Readable fw file phdr

section File

variable {fw : Firmware} {file : EfiFile} {s s' t : Machine ElfVars} {ehdr : Elf64Ehdr}
  {phdrs : UINT64} {table : Mem}

theorem InUse.allocatePool {h : List Event} {n : UINTN} {a : UINT64} {x : Nat}
    (huse : InUse h x) : InUse (.allocatePool n (.ok a) :: h) x := by
  cases huse with
  | inl hpages => exact Or.inl hpages
  | inr hpool =>
    obtain ⟨b, hb, hx⟩ := hpool
    exact Or.inr ⟨b, List.mem_cons_of_mem _ hb, hx⟩

theorem GotFileInfo.kept (h : GotFileInfo fw file s t ehdr phdrs table) {x : Nat}
    (huse : InUse s.trace x) : InUse t.trace x := by
  rw [h.trace]
  -- two pool buffers were obtained, nothing was freed
  exact InUse.allocatePool (InUse.allocatePool huse)

theorem LoadRun.of_fileInfo {secs : List ElfSectioninfo}
    (h : GotFileInfo fw file s t ehdr phdrs table) (hrun : LoadRun t s' secs) :
    LoadRun s s' secs where
  trace := by
    obtain ⟨evs, htrace⟩ := hrun.trace
    exact ⟨evs ++ fileInfoEvents ehdr table phdrs t.vars.info.sections, by
      rw [htrace, h.trace, List.append_assoc]⟩
  kept x hx := hrun.kept x (h.kept hx)
  owned := hrun.owned
  fresh sec hsec x hx huse := hrun.fresh sec hsec x hx (h.kept huse)
  disjoint := hrun.disjoint
  aligned := hrun.aligned
  below := hrun.below
  frame x hx := by rw [hrun.frame x (h.kept hx), h.mem]

/-- The number of sections in the load info is the number of segments. -/
theorem GotFileInfo.count_toNat (h : GotFileInfo fw file s t ehdr phdrs table) :
    t.vars.info.sectionCount.toNat = (file.image ehdr table).segments.length := by
  rw [h.count, elfCountLoadable_toNat, EfiFile.image, List.length_map]

/-- The loop of the discontiguous loader, run after `elf_get_file_info`. -/
theorem loadDiscontLoop_loaded (hfw : fw.SoundPages)
    (hinfo : GotFileInfo fw file s t ehdr phdrs table) :
    wp (loadDiscontLoop fw file 0 (phdrTable ehdr table))
      (fun _ s' => ElfPlaced fw file t s' ehdr table ∧
        ((∀ phdr ∈ loadable (phdrTable ehdr table), file.SegmentFits phdr) →
          ElfLoaded fw file t s' ehdr table))
      (fun e s' => LoadFailed fw file (loadable (phdrTable ehdr table)) t e s') t := by
  have hlen : t.vars.info.sectionInfos.length = 0 + (loadable (phdrTable ehdr table)).length := by
    rw [hinfo.infos, List.length_replicate, Nat.zero_add]
  refine wp_mono (loadDiscontLoop_spec hfw _ 0 hlen) ?_ (fun _ _ he => he)
  rintro _ s' ⟨secs, hrun, hsections, hreadable, hmem, hinfos⟩
  have hsecs : s'.vars.info.sectionInfos = secs := by
    rw [hinfos]
    rfl
  have hentry : s'.vars.info.entry = ehdr.eEntry := by
    rw [hinfos]
    exact hinfo.entry
  have hcount : s'.vars.info.sectionCount.toNat = (file.image ehdr table).segments.length := by
    rw [hinfos]
    exact hinfo.count_toNat
  refine ⟨⟨hsecs ▸ hrun, hentry, ?_, hsecs ▸ hsections, hreadable⟩, fun hfits => ?_⟩
  · rw [hcount, EfiFile.image, List.length_map]
  · obtain ⟨hframe, hheld⟩ := hmem hfits
    exact ⟨⟨hsecs ▸ hrun, hframe⟩, ⟨hentry, hcount, hsecs ▸ hheld⟩, hreadable⟩

/-- The cleanup frees pool buffers and always passes the error on. -/
theorem errFreeLoadInfo_spec {α : Type} {Q : α → Machine ElfVars → Prop} {e : EfiError} :
    wp (errFreeLoadInfo phdrs e) Q (fun stop s' => stop = .efi e ∧
      ∃ buffers : List UINT64, s'.trace = buffers.map Event.freePool ++ s.trace) s := by
  simp only [errFreeLoadInfo, elfFreeLoadinfo, wp_bind, wp_get, wp_ite, wp_freePool, wp_setInfo,
    wp_throw, true_and]
  exact ⟨fun _ => ⟨[_, _], rfl⟩, fun _ => ⟨[_], rfl⟩⟩

/-- The discontiguous loader loads what the headers it reads describe, and its image if the
    segments fit, or stops for the reason its loop had. -/
theorem elfLoadFileDiscont_spec (hfw : fw.SoundPages)
    (hget : elfGetFileInfo fw file s = .ok (ehdr, phdrs, table) t) :
    wp (elfLoadFileDiscont fw file)
      (fun _ s' => ElfPlaced fw file t s' ehdr table ∧
        ((∀ phdr ∈ loadable (phdrTable ehdr table), file.SegmentFits phdr) →
          ElfLoaded fw file t s' ehdr table))
      (fun e s' => ∃ u evs, s'.trace = evs ++ u.trace ∧
        LoadFailed fw file (loadable (phdrTable ehdr table)) t e u) s := by
  have hinfo := wp_ok elfGetFileInfo_spec hget
  rw [elfLoadFileDiscont, wp_bind]
  refine wp_of_ok hget ?_
  rw [wp_onError]
  refine wp_mono (loadDiscontLoop_loaded hfw hinfo)
    (fun _ _ loaded => loaded) fun stop u failed => ?_
  cases stop with
  | fault => exact ⟨u, [], rfl, failed⟩
  | efi e =>
    refine wp_mono errFreeLoadInfo_spec (fun _ _ h => h) ?_
    rintro _ s' ⟨rfl, buffers, htrace⟩
    exact ⟨u, _, htrace, failed⟩

theorem elfLoadFileDiscont_ok (hfw : fw.SoundPages)
    (h : elfLoadFileDiscont fw file s = .ok () s') :
    ∃ t ehdr phdrs table, elfGetFileInfo fw file s = .ok (ehdr, phdrs, table) t ∧
      GotFileInfo fw file s t ehdr phdrs table ∧ ElfPlaced fw file t s' ehdr table ∧
      ((∀ phdr ∈ loadable (phdrTable ehdr table), file.SegmentFits phdr) →
        ElfLoaded fw file t s' ehdr table) := by
  obtain ⟨⟨ehdr, phdrs, table⟩, t, hget, _⟩ := bind_eq_ok.mp h
  have hinfo := wp_ok elfGetFileInfo_spec hget
  obtain ⟨hplaced, hloaded⟩ := wp_ok (elfLoadFileDiscont_spec hfw hget) h
  exact ⟨t, ehdr, phdrs, table, hget, hinfo, hplaced, hloaded⟩

end File

end MidnightOS.Nyxboot
