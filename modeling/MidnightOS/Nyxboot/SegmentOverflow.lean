import MidnightOS.Nyxboot.SegmentReads

/-! # When segments are read past their sections

The other direction of `reads_inside_iff`: a table with a segment that does not
fit its section has a run that reads past it.  The run is that of a machine that
has all of the physical memory for pages, on a file made from the table.
-/

namespace MidnightOS.Nyxboot

open MidnightOS.Lib

/-! ## A machine with all of memory for pages -/

/-- An address above every run of pages obtained so far. -/
def pagesTop : List Event → Nat
  | [] => 0
  | .allocatePages n (.ok a) :: h => max (a.toNat + 4096 * n.toNat) (pagesTop h)
  | _ :: h => pagesTop h

/-- So far `used` pages were obtained, from the bottom up, and no pool buffer lies
    in physical memory. -/
def Stacked (h : List Event) (used : Nat) : Prop :=
  pagesTop h = 4096 * used ∧ ∀ b ∈ poolBuffers h, 2 ^ 52 ≤ b.1

/-- Pages are handed out from the bottom up; pool buffers are above them all. -/
def Firmware.whole : Firmware where
  allocatePages h n :=
    if pagesTop h % 4096 = 0 ∧ pagesTop h + 4096 * n.toNat ≤ 2 ^ 52 ∧
        ∀ b ∈ poolBuffers h, 2 ^ 52 ≤ b.1 then
      .ok (BitVec.ofNat 64 (pagesTop h))
    else .error .outOfResources
  allocatePool _ _ := .ok 0x10000000000000
  setPosition _ _ := .ok ()
  read _ _ _ := .ok ()
  indeterminate _ _ := 0

theorem pagesHeld_lt_pagesTop {h : List Event} {x : Nat} (held : PagesHeld h x) :
    x < pagesTop h := by
  induction h using pagesTop.induct with
  | case1 => exact absurd held id
  | case2 n a h ih =>
    cases held with
    | inl inside => exact Nat.lt_of_lt_of_le inside.2 (Nat.le_max_left _ _)
    | inr held => exact Nat.lt_of_lt_of_le (ih held) (Nat.le_max_right _ _)
  | case3 ev h hev ih =>
    rw [pagesTop.eq_3 _ _ hev]
    cases ev with
    | allocatePages n res =>
      cases res with
      | ok a => exact absurd rfl (hev n a)
      | error e => exact ih held
    | freePages a n => exact ih held.1
    | load a n => exact ih held
    | store a n => exact ih held
    | allocatePool n res => exact ih held
    | freePool a => exact ih held
    | setPosition p res => exact ih held
    | read n b res => exact ih held

theorem whole_allocatePages_ok {h : List Event} {n : UINTN} {a : UINT64}
    (granted : Firmware.whole.allocatePages h n = .ok a) :
    a.toNat = pagesTop h ∧ pagesTop h % 4096 = 0 ∧ pagesTop h + 4096 * n.toNat ≤ 2 ^ 52 ∧
      ∀ b ∈ poolBuffers h, 2 ^ 52 ≤ b.1 := by
  simp only [Firmware.whole] at granted
  split at granted
  · next room =>
    cases granted
    refine ⟨?_, room⟩
    rw [BitVec.toNat_ofNat]
    omega
  · cases granted

theorem Firmware.whole_soundPages : Firmware.whole.SoundPages := by
  refine ⟨fun h n a granted => ?_, fun h n a granted => ?_, fun h n a granted x lo hi inUse => ?_⟩
  · obtain ⟨addr, aligned, _⟩ := whole_allocatePages_ok granted
    omega
  · obtain ⟨addr, _, room, _⟩ := whole_allocatePages_ok granted
    omega
  · obtain ⟨addr, _, room, above⟩ := whole_allocatePages_ok granted
    cases inUse with
    | inl held =>
      have := pagesHeld_lt_pagesTop held
      omega
    | inr pool =>
      obtain ⟨b, hb, hlo, _⟩ := pool
      have := above b hb
      omega

theorem whole_grants {h : List Event} {n : UINTN} {used : Nat} (stacked : Stacked h used)
    (room : used + n.toNat ≤ 2 ^ 40) :
    ∃ a, Firmware.whole.allocatePages h n = .ok a ∧ a.toNat = 4096 * used ∧
      Stacked (.allocatePages n (.ok a) :: h) (used + n.toNat) := by
  obtain ⟨top, above⟩ := stacked
  have addr : (BitVec.ofNat 64 (pagesTop h)).toNat = 4096 * used := by
    rw [BitVec.toNat_ofNat, top]
    omega
  refine ⟨BitVec.ofNat 64 (pagesTop h), if_pos ⟨by omega, by omega, above⟩, addr, ?_, above⟩
  rw [pagesTop, addr, top]
  omega

/-! ## Loads on that machine -/

section Progress

variable {file : EfiFile} {s t : Machine ElfVars} {phdr : Elf64Phdr} {used : Nat}

/-- After `s`, a segment read was issued that `count` others came before. -/
def Issued (s s' : Machine ElfVars) (count : Nat) (size : UINTN) (addr : UINT64 → Prop) : Prop :=
  ∃ evs b, s'.trace = evs ++ s.trace ∧ (segmentReads evs)[count]? = some (size, b) ∧ addr b

theorem Issued.later {count : Nat} {size : UINTN} {addr : UINT64 → Prop} {evs : List Event}
    {s' : Machine ElfVars} {read : UINTN × UINT64} (htrace : t.trace = evs ++ s.trace)
    (reads : segmentReads evs = [read]) (issued : Issued t s' count size addr) :
    Issued s s' (count + 1) size addr := by
  obtain ⟨evs', b, htrace', later, haddr⟩ := issued
  refine ⟨evs' ++ evs, b, by rw [htrace', htrace, List.append_assoc], ?_, haddr⟩
  rw [segmentReads_append, reads]
  exact later

theorem Issued.imp {count : Nat} {size : UINTN} {addr addr' : UINT64 → Prop} {s' : Machine ElfVars}
    (issued : Issued s s' count size addr) (h : ∀ b, addr b → addr' b) :
    Issued s s' count size addr' := by
  obtain ⟨evs, b, htrace, read, haddr⟩ := issued
  exact ⟨evs, b, htrace, read, h b haddr⟩

theorem whole_loadDiscontSegment (stacked : Stacked s.trace used)
    (room : used + (segmentPages phdr).toNat ≤ 2 ^ 40) (index : Nat) :
    wp (loadDiscontSegment Firmware.whole file index phdr)
      (fun _ s' => ∃ paddr, s'.trace = segmentEvents phdr paddr ++ s.trace ∧
        Stacked s'.trace (used + (segmentPages phdr).toNat))
      (fun _ _ => False) s := by
  obtain ⟨paddr, granted, _, stacked'⟩ := whole_grants stacked room
  simp only [loadDiscontSegment, wp_bind, wp_allocatePages, wp_zeroMem, wp_setPosition,
    wp_readPages, setSection, wp_setInfo, granted]
  refine ⟨fun _ same => ?_, fun e refused => by cases refused⟩
  cases same
  exact ⟨fun _ => ⟨fun _ => ⟨paddr, rfl, stacked'⟩, fun e refused => by cases refused⟩,
    fun e refused => by cases refused⟩

/-- If there are pages for it and the segments before it, a segment is read. -/
theorem whole_loadDiscontLoop (phdrs : List Elf64Phdr) (index : Nat)
    {before rest : List Elf64Phdr} (split : loadable phdrs = before ++ phdr :: rest)
    (stacked : Stacked s.trace used) (room : used + pagesOf (before ++ [phdr]) ≤ 2 ^ 40) :
    wp (loadDiscontLoop Firmware.whole file index phdrs)
      (fun _ s' => Issued s s' before.length phdr.pFilesz fun _ => True)
      (fun _ s' => Issued s s' before.length phdr.pFilesz fun _ => True) s := by
  induction phdrs generalizing before index s used with
  | nil => simp [loadable] at split
  | cons head tail ih =>
    by_cases hload : head.pType = ptLoad
    · rw [loadable_cons_of_load hload] at split
      simp only [loadDiscontLoop, if_pos hload, wp_bind]
      cases before with
      | nil =>
        -- this is the segment: whatever follows, its read is issued
        injection split with same _
        subst same
        have here : used + (segmentPages head).toNat ≤ 2 ^ 40 := by simpa [pagesOf] using room
        refine wp_mono (whole_loadDiscontSegment stacked here index) ?_ (fun _ _ h => h.elim)
        rintro _ t ⟨paddr, htrace, _⟩
        have first : ∀ u, (∃ evs placed, DiscontTrace Firmware.whole (loadable tail) t u evs placed) →
            Issued s u 0 head.pFilesz fun _ => True := by
          rintro u ⟨evs, placed, loop⟩
          refine ⟨evs ++ segmentEvents head paddr, paddr, ?_, ?_, trivial⟩
          · rw [loop.trace, htrace, List.append_assoc]
          · rw [segmentReads_append]
            rfl
        exact wp_mono (loadDiscontLoop_trace tail (index + 1)) (fun _ => first) (fun _ => first)
      | cons p before =>
        injection split with same later
        subst same
        rw [List.cons_append, pagesOf_cons] at room
        refine wp_mono (whole_loadDiscontSegment stacked (by omega) index) ?_ (fun _ _ h => h.elim)
        rintro _ t ⟨paddr, htrace, stacked'⟩
        have next := ih (index + 1) later stacked' (by omega)
        refine wp_mono next ?_ ?_
        · exact fun _ _ issued => issued.later htrace rfl
        · exact fun _ _ issued => issued.later htrace rfl
    · rw [loadable_cons_of_not_load hload] at split
      simp only [loadDiscontLoop, if_neg hload]
      exact ih index split stacked room

/-- The events of reading a segment into the buffer. -/
def readEvents (phdr : Elf64Phdr) (paddr : UINT64) : List Event :=
  [.read phdr.pFilesz (some paddr) (.ok ()), .setPosition phdr.pOffset (.ok ())]

theorem whole_loadContSegment {paddr : UINT64} (index : Nat) :
    wp (loadContSegment Firmware.whole file index paddr phdr)
      (fun _ s' => s'.trace = readEvents phdr paddr ++ s.trace) (fun _ _ => False) s := by
  simp only [loadContSegment, wp_bind, wp_setPosition, wp_readPages, setSection, wp_setInfo]
  exact ⟨fun _ => ⟨fun _ => rfl, fun e refused => by cases refused⟩, fun e refused => by cases refused⟩

/-- If there is room for the sections before it, a segment is read to where these end. -/
theorem whole_loadContLoop {top : Nat} (phdrs : List Elf64Phdr) (index : Nat) {paddr : UINT64}
    {before rest : List Elf64Phdr} (split : loadable phdrs = before ++ phdr :: rest)
    (below : top ≤ 2 ^ 52) (room : paddr.toNat + 4096 * pagesOf before ≤ top) :
    wp (loadContLoop Firmware.whole file index paddr phdrs)
      (fun _ s' => Issued s s' before.length phdr.pFilesz fun b =>
        b.toNat = paddr.toNat + 4096 * pagesOf before)
      (fun _ s' => Issued s s' before.length phdr.pFilesz fun b =>
        b.toNat = paddr.toNat + 4096 * pagesOf before) s := by
  induction phdrs generalizing before index paddr s with
  | nil => simp [loadable] at split
  | cons head tail ih =>
    by_cases hload : head.pType = ptLoad
    · rw [loadable_cons_of_load hload] at split
      simp only [loadContLoop, if_pos hload, wp_bind]
      cases before with
      | nil =>
        injection split with same _
        subst same
        refine wp_mono (whole_loadContSegment index) ?_ (fun _ _ h => h.elim)
        intro _ t htrace
        have first : ∀ u, (∃ evs placed,
            ContTrace (loadable tail) (paddr + alignedMemsz head) t u evs placed) →
            Issued s u 0 head.pFilesz fun b => b.toNat = paddr.toNat + 4096 * pagesOf [] := by
          rintro u ⟨evs, placed, loop⟩
          refine ⟨evs ++ readEvents head paddr, paddr, ?_, ?_, rfl⟩
          · rw [loop.trace, htrace, List.append_assoc]
          · rw [segmentReads_append]
            rfl
        exact wp_mono (loadContLoop_trace tail (index + 1) _) (fun _ => first) (fun _ => first)
      | cons p before =>
        injection split with same later
        subst same
        rw [pagesOf_cons] at room
        have next : (paddr + alignedMemsz head).toNat =
            paddr.toNat + 4096 * (segmentPages head).toNat := by
          rw [BitVec.toNat_add, alignedMemsz_toNat]
          omega
        have addr : ∀ b : UINT64, b.toNat = (paddr + alignedMemsz head).toNat + 4096 * pagesOf before →
            b.toNat = paddr.toNat + 4096 * pagesOf (head :: before) := by
          intro b hb
          rw [pagesOf_cons]
          omega
        refine wp_mono (whole_loadContSegment index) ?_ (fun _ _ h => h.elim)
        intro _ t htrace
        refine wp_mono (ih (index + 1) later (by omega)) ?_ ?_
        · exact fun _ _ issued => (issued.later htrace rfl).imp addr
        · exact fun _ _ issued => (issued.later htrace rfl).imp addr
    · rw [loadable_cons_of_not_load hload] at split
      simp only [loadContLoop, if_neg hload]
      exact ih index split room

end Progress

/-! ## The file of a table -/

/-- The headers of a file are read, and no pages are obtained for that. -/
theorem whole_fileInfo {file : EfiFile} (inside : file.HeadersInside)
    (accepted : file.ehdr.Accepted) :
    ∃ ehdr buffer table t, elfGetFileInfo Firmware.whole file openedMachine =
      .ok (ehdr, buffer, table) t ∧ phdrTable ehdr table = file.phdrs ∧ Stacked t.trace 0 := by
  have header : Elf64Ehdr.decode (filled Firmware.whole openedMachine.trace
      (file.delivered openedMachine.vars.position 64)) = file.ehdr := by
    refine Elf64Ehdr.decode_congr fun i hi => ?_
    have size : (64 : UINTN).toNat = 64 := rfl
    have enough := inside.header
    rw [file.filled_delivered (by rw [size]; exact Nat.le_trans (Nat.le_of_eq (Nat.zero_add 64)) enough)
      (by rw [size]; exact hi)]
    exact congrArg file.byte (Nat.zero_add i)
  have run : wp (elfGetFileInfo Firmware.whole file) (fun _ t => Stacked t.trace 0)
      (fun _ _ => False) openedMachine := by
    simp only [elfGetFileInfo, wp_bind, wp_readBuffer, wp_onError, wp_setPosition,
      wp_allocatePool, wp_setInfo, wp_freePool, wp_throw, wp_pure, wp_faultIf, header]
    refine ⟨fun _ => ?_, fun e refused => by cases refused⟩
    refine wp_mono elfVerifyEhdr_spec ?_ ?_
    · rintro _ _ ⟨rfl, _⟩
      refine ⟨fun large => absurd inside.tableSize (by omega), fun _ => ⟨fun buffer hbuffer =>
        ⟨fun _ => ⟨fun _ => ⟨fun sections hsections => ?_, fun e refused => by cases refused⟩,
        fun e refused => by cases refused⟩, fun e refused => by cases refused⟩,
        fun e refused => by cases refused⟩⟩
      -- both pool buffers are above the pages
      cases hbuffer
      cases hsections
      refine ⟨rfl, ?_⟩
      intro b hb
      cases hb with
      | head => exact Nat.le_refl _
      | tail _ hb =>
        cases hb with
        | head => exact Nat.le_refl _
        | tail _ hb => cases hb
    · rintro e _ ⟨_, _, rejected⟩
      exact absurd accepted rejected
  cases hget : elfGetFileInfo Firmware.whole file openedMachine with
  | error e t => exact absurd (wp_error run hget) id
  | ok r t =>
    have info := wp_ok elfGetFileInfo_spec hget
    have stacked := wp_ok run hget
    obtain ⟨ehdr, buffer, table⟩ := r
    exact ⟨ehdr, buffer, table, t, rfl, (info.of_headersInside inside rfl).2, stacked⟩

/-- A file with these program headers and nothing else. -/
def tableFile (phdrs : List Elf64Phdr) (hlen : phdrs.length < 2 ^ 16) : EfiFile :=
  ⟨elfBytes phdrs [], by rw [length_elfBytes, List.length_nil]; omega⟩

section Table

variable {phdrs before rest : List Elf64Phdr} {phdr : Elf64Phdr}

/-- The read that as many come before as segments before `phdr` is that of `phdr`. -/
theorem ReadsInside.mem_placed {evs : List Event} {placed : List (Elf64Phdr × UINT64)} {n : UINTN}
    {b : UINT64} (inside : ReadsInside phdrs evs placed)
    (split : loadable phdrs = before ++ phdr :: rest)
    (read : (segmentReads evs)[before.length]? = some (n, b)) : (phdr, b) ∈ placed := by
  rw [inside.reads, List.getElem?_map, Option.map_eq_some_iff] at read
  obtain ⟨p, hp, same⟩ := read
  have header : (placed.map (·.1))[before.length]? = some p.1 := by simp [hp]
  obtain ⟨later, order⟩ := inside.order
  have nth : (loadable phdrs)[before.length]? = some p.1 := by
    rw [← order, List.getElem?_append_left (List.getElem?_eq_some_iff.mp header).1, header]
  rw [split, List.getElem?_append_right (Nat.le_refl _), Nat.sub_self] at nth
  cases nth
  cases same
  exact List.mem_of_getElem? hp

/-- A table whose segments are read inside their sections, whatever the firmware
    answers, is safe. -/
theorem discontSafe_of_loadsInside (hlen : phdrs.length < 2 ^ 16)
    (inside : LoadsInside elfLoadFileDiscont phdrs) : DiscontSafe (loadable phdrs) := by
  intro before phdr rest split room
  obtain ⟨headersInside, accepted, hphdrs⟩ :=
    EfiFile.of_elfBytes (show (tableFile phdrs hlen).bytes = elfBytes phdrs [] from rfl) hlen
  obtain ⟨ehdr, buffer, table, t, hget, htable, stacked⟩ := whole_fileInfo headersInside accepted
  rw [hphdrs] at htable
  obtain ⟨u, clean, ⟨evs, b, htrace, read, _⟩, hclean, quiet⟩ :=
    elfLoadFileDiscont_after hget (whole_loadDiscontLoop _ 0 (htable ▸ split) stacked (by omega))
  have info := wp_ok elfGetFileInfo_spec hget
  rw [htrace, info.trace, ← List.append_assoc, ← List.append_assoc] at hclean
  obtain ⟨placed, safe⟩ := inside _ _ _ _ _ _ _ _ Firmware.whole_soundPages hget htable hclean
  rw [← quiet.reads_between (fileInfoEvents_quiet ehdr table buffer t.vars.info.sections)] at read
  exact safe.size _ (safe.mem_placed split read)

theorem contSafe_of_loadsInside (hlen : phdrs.length < 2 ^ 16)
    (inside : LoadsInside elfLoadFileCont phdrs) : ContSafe (loadable phdrs) := by
  intro small
  obtain ⟨headersInside, accepted, hphdrs⟩ :=
    EfiFile.of_elfBytes (show (tableFile phdrs hlen).bytes = elfBytes phdrs [] from rfl) hlen
  obtain ⟨ehdr, buffer, table, t, hget, htable, stacked⟩ := whole_fileInfo headersInside accepted
  rw [hphdrs] at htable
  have count := elfGetSectionSize_toNat ehdr table
  rw [htable] at count
  change _ = bufferPages (loadable phdrs) at count
  obtain ⟨loadBuffer, granted, _⟩ := whole_grants stacked
    (show 0 + (elfGetSectionSize ehdr table).toNat ≤ 2 ^ 40 by omega)
  have below := Firmware.whole_soundPages.below _ _ _ granted
  rw [← count]
  -- the segments up to one that does not fit
  have upTo : ∀ before rest, loadable phdrs = before ++ rest →
      pagesOf before ≤ (elfGetSectionSize ehdr table).toNat ∧
      ∀ p ∈ before, p.pFilesz.toNat ≤ 4096 * (segmentPages p).toNat := by
    intro before
    induction before using List.reverseRecOn with
    | nil => simp [pagesOf]
    | append_singleton before phdr ih =>
      intro rest split
      rw [List.append_assoc, List.singleton_append] at split
      obtain ⟨room, sizes⟩ := ih (phdr :: rest) split
      have reached : wp (loadContLoop Firmware.whole (tableFile phdrs hlen) 0 loadBuffer
          (phdrTable ehdr table)) _ _ (buffered loadBuffer (elfGetSectionSize ehdr table) t) :=
        whole_loadContLoop _ 0 (htable ▸ split) below (by omega)
      have loop := wp_and reached (loadContLoop_trace (phdrTable ehdr table) 0 loadBuffer)
      obtain ⟨u, clean, ⟨⟨evs, b, htrace, read, addr⟩, evs', _, shape⟩, hclean, quiet⟩ :=
        elfLoadFileCont_after hget granted loop
      -- the two descriptions of the loop are of the same events
      have same := List.append_cancel_right (htrace.symm.trans shape.trace)
      subst same
      have start : (buffered loadBuffer (elfGetSectionSize ehdr table) t).trace =
        bufferEvents loadBuffer (elfGetSectionSize ehdr table) ++ t.trace := rfl
      have info := wp_ok elfGetFileInfo_spec hget
      rw [htrace, start, info.trace, ← List.append_assoc evs, ← List.append_assoc,
        ← List.append_assoc] at hclean
      obtain ⟨placed, safe⟩ := inside _ _ _ _ _ _ _ _ Firmware.whole_soundPages hget htable hclean
      have quiet' := fileInfoEvents_quiet ehdr table buffer t.vars.info.sections
      have reads : segmentReads (evs ++ bufferEvents loadBuffer (elfGetSectionSize ehdr table)) =
          segmentReads evs := by
        rw [segmentReads_append]
        rfl
      have runs : obtainedRuns (evs ++ bufferEvents loadBuffer (elfGetSectionSize ehdr table)) =
          [(loadBuffer, elfGetSectionSize ehdr table)] := by
        rw [obtainedRuns_append, shape.runs]
        rfl
      rw [← reads, ← quiet.reads_between quiet'] at read
      have mem := safe.mem_placed split read
      obtain ⟨r, hr, lo, hi⟩ := safe.obtained _ mem
      rw [quiet.runs_between quiet', runs, List.mem_singleton] at hr
      subst hr
      refine ⟨?_, ?_⟩
      · change b.toNat + 4096 * (segmentPages phdr).toNat ≤ loadBuffer.toNat +
          4096 * (elfGetSectionSize ehdr table).toNat at hi
        rw [pagesOf_append, pagesOf_cons, pagesOf_nil]
        omega
      · rw [List.forall_mem_append]
        exact ⟨sizes, by simpa using safe.size _ mem⟩
  exact upTo (loadable phdrs) [] (List.append_nil _).symm

/-- The segments of a table are read inside their sections in every run exactly if
    their sizes are safe for the loader. -/
theorem reads_inside_iff (hlen : phdrs.length < 2 ^ 16) :
    (LoadsInside elfLoadFileDiscont phdrs ↔ DiscontSafe (loadable phdrs)) ∧
    (LoadsInside elfLoadFileCont phdrs ↔ ContSafe (loadable phdrs)) :=
  ⟨⟨discontSafe_of_loadsInside hlen, loadsInside_discont_of_safe⟩,
    ⟨contSafe_of_loadsInside hlen, loadsInside_cont_of_safe⟩⟩

theorem not_readsInside_of_overlong {evs : List Event} {n : UINTN} {b : UINT64}
    (one : loadable phdrs = [phdr]) (reads : segmentReads evs = [(n, b)])
    (overlong : 4096 * (segmentPages phdr).toNat < phdr.pFilesz.toNat) :
    ¬∃ placed, ReadsInside phdrs evs placed := by
  rintro ⟨placed, inside⟩
  have mem := inside.mem_placed (show loadable phdrs = [] ++ phdr :: [] from one)
    (by rw [reads]; rfl)
  exact absurd (inside.size _ mem) (Nat.not_le_of_lt overlong)

end Table

/-- Its one segment has 5000 bytes in the file, and one in memory. -/
def overlongElf : EfiFile :=
  ⟨oneSegmentBytes 5000 1 (List.replicate 5000 0xAA), by decide +kernel⟩

/-- Both loaders read the 5000 bytes to a section of one page. -/
theorem overlong_segment_read :
    overlongElf.ehdr.Accepted ∧ (Firmware.bump (2 ^ 30)).SoundPages ∧
    (¬∃ placed, ReadsInside overlongElf.phdrs
      (after (elfLoadFileDiscont (Firmware.bump (2 ^ 30)) overlongElf) openedMachine).trace
      placed) ∧
    ¬∃ placed, ReadsInside overlongElf.phdrs
      (after (elfLoadFileCont (Firmware.bump (2 ^ 30)) overlongElf) openedMachine).trace placed := by
  have one : loadable overlongElf.phdrs = [oneSegmentPhdr 5000 1] := by decide +kernel
  refine ⟨(EfiFile.of_elfBytes (show overlongElf.bytes = elfBytes [oneSegmentPhdr 5000 1] _ from rfl)
      (by decide)).2.1,
    Firmware.bump_soundPages _ (by decide),
    not_readsInside_of_overlong one (n := 5000) (b := 0x3000) (by decide +kernel) (by decide),
    not_readsInside_of_overlong one (n := 5000) (b := 0x3000) (by decide +kernel) (by decide)⟩

theorem reads_inside_iff_overlong : ¬LoadsInside elfLoadFileDiscont [oneSegmentPhdr 5000 1] :=
  fun inside => absurd ((reads_inside_iff (by decide)).1.mp inside [] _ [] rfl (by decide))
    (by decide)

end MidnightOS.Nyxboot
