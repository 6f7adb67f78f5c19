import MidnightOS.Nyxboot.SegmentOverflow

/-! # Files that end too early

A `Read` that comes to the end of the file succeeds with fewer bytes than asked for, and the
loader does not look at how many it got.  So a file that is cut short is loaded whenever
every read of it begins inside the file: `rejects_cut_short_iff`.
-/

namespace MidnightOS.Nyxboot

open MidnightOS.Lib

/-! ## Reads of a file -/

/-- A `Read` succeeds up to the end of the file, and not behind it. -/
structure Firmware.ReadsFile (fw : Firmware) (file : EfiFile) : Prop where
  within : ∀ h position size, position ≤ file.bytes.length → fw.read h position size = .ok ()
  beyond : ∀ h position size, file.bytes.length < position →
    ∃ e, fw.read h position size = .error e

/-- All `size` bytes from `position` on are in the file. -/
def EfiFile.Holds (file : EfiFile) (position size : Nat) : Prop :=
  ∀ x, position ≤ x → x < position + size → x < file.bytes.length

/-- A read at `position` gets fewer bytes than it asks for. -/
def EfiFile.CutsShort (file : EfiFile) (position : Nat) (size : UINTN) : Prop :=
  (file.delivered position size).length < size.toNat

section Reads

variable {file : EfiFile}

theorem Firmware.ReadsFile.begins {fw : Firmware} (reads : fw.ReadsFile file) {h : List Event}
    {start : Nat} {size : UINTN} (ok : fw.read h start size = .ok ()) : start ≤ file.bytes.length := by
  by_contra behind
  obtain ⟨e, refused⟩ := reads.beyond h start size (Nat.lt_of_not_le behind)
  rw [refused] at ok
  cases ok

theorem EfiFile.holds_iff {start n : Nat} :
    file.Holds start n ↔ n = 0 ∨ start + n ≤ file.bytes.length := by
  constructor
  · intro holds
    by_cases none : n = 0
    · exact .inl none
    · have last := holds (start + (n - 1)) (by omega) (by omega)
      exact .inr (by omega)
  · intro inside x lo hi
    omega

/-- Where a read begins inside the file, it is cut short unless the file holds what is read. -/
theorem EfiFile.cutsShort_iff (position : UINT64) (size : UINTN)
    (inside : file.seek position ≤ file.bytes.length) :
    file.CutsShort (file.seek position) size ↔ ¬file.Holds position.toNat size.toNat := by
  rw [EfiFile.holds_iff, EfiFile.CutsShort, EfiFile.delivered, List.length_take, List.length_drop]
  by_cases before : position.toNat ≤ file.bytes.length
  · rw [file.seek_of_le before]
    omega
  · -- only the position that stands for the end of the file
    have atEnd : file.seek position = file.bytes.length := by
      unfold EfiFile.seek at inside ⊢
      by_cases ones : position = 0xFFFFFFFFFFFFFFFF#64
      · rw [if_pos ones]
      · rw [if_neg ones] at inside
        exact absurd inside before
    rw [atEnd]
    omega

end Reads

/-! ## Loads of a file that is cut short -/

/-- The file has the header, the program header table and the segments. -/
structure EfiFile.HoldsElf (file : EfiFile) (ehdr : Elf64Ehdr) (segs : List Elf64Phdr) : Prop where
  header : file.Holds 0 64
  table : file.Holds ehdr.ePhoff.toNat (phdrBufferSize ehdr)
  segments : ∀ phdr ∈ segs, file.Holds phdr.pOffset.toNat phdr.pFilesz.toNat

/-- Every load of the freshly opened file that succeeds is of headers and segments that the
file has. -/
def RejectsCutShort (load : Firmware → EfiFile → ElfM Unit) (file : EfiFile) : Prop :=
  ∀ fw s s' ehdr phdrs table t, fw.SoundPages → fw.ReadsFile file → s.vars.position = 0 →
    load fw file s = .ok () s' → elfGetFileInfo fw file s = .ok (ehdr, phdrs, table) t →
    file.HoldsElf ehdr (loadable (phdrTable ehdr table))

/-- What a read leaves in a buffer that held `before`. -/
def readOver (bytes : List Byte) (before : Mem) : Mem := fun i => bytes.getD i (before i)

/-- The header, read over what was on the stack. -/
def EfiFile.headerOver (file : EfiFile) (stack : Mem) : Elf64Ehdr :=
  .decode (readOver (file.delivered 0 64) stack)

/-- The headers of the segments to load, read over what was in the pool. -/
def EfiFile.segmentsOver (file : EfiFile) (ehdr : Elf64Ehdr) (pool : Mem) : List Elf64Phdr :=
  loadable (phdrTable ehdr (readOver
    (file.delivered (file.seek ehdr.ePhoff) (BitVec.ofNat 64 (phdrBufferSize ehdr))) pool))

/-- The header passes the checks of `elf_verify_ehdr`, and what it leads to begins inside the
file. -/
structure EfiFile.Begins (file : EfiFile) (ehdr : Elf64Ehdr) (segs : List Elf64Phdr) : Prop where
  accepted : ehdr.Accepted
  small : phdrBufferSize ehdr < 2 ^ 31
  table : file.seek ehdr.ePhoff ≤ file.bytes.length
  segments : ∀ phdr ∈ segs, file.seek phdr.pOffset ≤ file.bytes.length

/-- There is memory for the segments, each in pages of its own. -/
def DiscontRoom (segs : List Elf64Phdr) : Prop := pagesOf segs ≤ 2 ^ 40

/-- There is memory for the buffer of the contiguous loader. -/
def ContRoom (segs : List Elf64Phdr) : Prop := bufferPages segs ≤ 2 ^ 40

/-- One of the reads is cut short. -/
def EfiFile.CutsShortElf (file : EfiFile) (ehdr : Elf64Ehdr) (segs : List Elf64Phdr) : Prop :=
  file.CutsShort 0 64 ∨
    file.CutsShort (file.seek ehdr.ePhoff) (BitVec.ofNat 64 (phdrBufferSize ehdr)) ∨
    ∃ phdr ∈ segs, file.CutsShort (file.seek phdr.pOffset) phdr.pFilesz

section Loads

variable {file : EfiFile} {ehdr : Elf64Ehdr} {segs : List Elf64Phdr} {fw : Firmware}
  {s s' t : Machine ElfVars} {phdrs : UINT64} {table : Mem}

theorem EfiFile.Begins.cutsShort_iff (begins : file.Begins ehdr segs) :
    file.CutsShortElf ehdr segs ↔ ¬file.HoldsElf ehdr segs := by
  have small := begins.small
  have size : (BitVec.ofNat 64 (phdrBufferSize ehdr)).toNat = phdrBufferSize ehdr := by
    rw [BitVec.toNat_ofNat]
    omega
  have header : file.CutsShort 0 64 ↔ ¬file.Holds 0 64 :=
    EfiFile.cutsShort_iff 0 64 (Nat.zero_le _)
  have table := EfiFile.cutsShort_iff _ (BitVec.ofNat 64 (phdrBufferSize ehdr)) begins.table
  rw [size] at table
  rw [EfiFile.CutsShortElf, header, table]
  constructor
  · -- a read that is cut short misses something
    rintro (short | short | ⟨phdr, mem, short⟩) holds
    · exact short holds.header
    · exact short holds.table
    · exact (EfiFile.cutsShort_iff _ _ (begins.segments phdr mem)).mp short (holds.segments phdr mem)
  · -- and if none is, every one delivers all it asks for
    intro notHolds
    by_contra none
    simp only [not_or, not_not, not_exists, not_and] at none
    obtain ⟨hasHeader, hasTable, whole⟩ := none
    refine notHolds ⟨hasHeader, hasTable, fun phdr mem => ?_⟩
    have notShort := whole phdr mem
    rwa [EfiFile.cutsShort_iff _ _ (begins.segments phdr mem), not_not] at notShort

/-- The headers that a run reads are among those that can be left in its buffers. -/
theorem GotFileInfo.over (info : GotFileInfo fw file s t ehdr phdrs table)
    (start : s.vars.position = 0) :
    ∃ stack pool, ehdr = file.headerOver stack ∧
      loadable (phdrTable ehdr table) = file.segmentsOver ehdr pool := by
  obtain ⟨h, table_eq⟩ := info.table_eq
  refine ⟨fw.indeterminate s.trace, fw.indeterminate h, ?_, ?_⟩
  · rw [info.ehdr_eq, start]
    rfl
  · rw [table_eq]
    rfl

/-- A table that was read begins inside the file. -/
theorem elfGetFileInfo_reads (reads : fw.ReadsFile file) :
    wp (elfGetFileInfo fw file) (fun r _ => file.seek r.1.ePhoff ≤ file.bytes.length)
      (fun _ _ => True) s := by
  simp only [elfGetFileInfo, wp_bind, wp_readBuffer, wp_onError, wp_setPosition, wp_allocatePool,
    wp_setInfo, wp_freePool, wp_throw, wp_pure, wp_faultIf, implies_true, and_true, true_and]
  intro _
  refine wp_mono elfVerifyEhdr_spec ?_ (fun _ _ _ => trivial)
  intro _ _ _ _ _ _ _ read _ _
  exact reads.begins read

/-! ## What a load that succeeds shows -/

theorem begins_of_fileInfo (reads : fw.ReadsFile file)
    (got : elfGetFileInfo fw file s = .ok (ehdr, phdrs, table) t)
    (segments : ∀ phdr ∈ loadable (phdrTable ehdr table),
      file.seek phdr.pOffset ≤ file.bytes.length) :
    file.Begins ehdr (loadable (phdrTable ehdr table)) where
  accepted := (wp_ok elfGetFileInfo_spec got).accepted
  small := (wp_ok elfGetFileInfo_spec got).small
  table := by
    have inside := wp_ok (elfGetFileInfo_reads reads) got
    exact inside
  segments := segments

theorem discont_begins (sound : fw.SoundPages) (reads : fw.ReadsFile file)
    (loaded : elfLoadFileDiscont fw file s = .ok () s')
    (got : elfGetFileInfo fw file s = .ok (ehdr, phdrs, table) t) :
    file.Begins ehdr (loadable (phdrTable ehdr table)) ∧
      DiscontRoom (loadable (phdrTable ehdr table)) := by
  obtain ⟨placed, _⟩ := wp_ok (elfLoadFileDiscont_spec sound got) loaded
  refine ⟨begins_of_fileInfo reads got fun phdr mem => ?_, ?_⟩
  · obtain ⟨h, ok⟩ := (placed.readable phdr mem).read
    exact reads.begins ok
  · -- the sections that were loaded take pages of physical memory, each its own
    have pages := placed.run.sum_pages_le
    rw [sum_pageCounts (placed.sections.imp fun _ _ => IsSectionOf.pageCount)] at pages
    exact pages

/-- Segments that were read into the buffer begin inside the file. -/
theorem loadContLoop_begins {paddr : UINT64} (reads : fw.ReadsFile file) (rest : List Elf64Phdr)
    (index : Nat) :
    wp (loadContLoop fw file index paddr rest)
      (fun _ _ => ∀ phdr ∈ loadable rest, file.seek phdr.pOffset ≤ file.bytes.length)
      (fun _ _ => True) s := by
  induction rest generalizing index paddr s with
  | nil => exact fun _ mem => by cases mem
  | cons phdr rest ih =>
    by_cases hload : phdr.pType = ptLoad
    · rw [loadable_cons_of_load hload]
      simp only [loadContLoop, if_pos hload, loadContSegment, wp_bind, wp_setPosition, wp_readPages,
        setSection, wp_setInfo, implies_true, and_true]
      intro _ read
      refine wp_mono (ih _) (fun _ _ begins => ?_) (fun _ _ h => h)
      exact List.forall_mem_cons.mpr ⟨reads.begins read, begins⟩
    · rw [loadable_cons_of_not_load hload]
      simp only [loadContLoop, if_neg hload]
      exact ih index

theorem cont_begins (sound : fw.SoundPages) (reads : fw.ReadsFile file)
    (loaded : elfLoadFileCont fw file s = .ok () s')
    (got : elfGetFileInfo fw file s = .ok (ehdr, phdrs, table) t) :
    file.Begins ehdr (loadable (phdrTable ehdr table)) ∧
      ContRoom (loadable (phdrTable ehdr table)) := by
  have pages : (elfGetSectionSize ehdr table).toNat = bufferPages (loadable (phdrTable ehdr table)) :=
    elfGetSectionSize_toNat ehdr table
  have run := elfLoadFileCont_of_loop (E := fun _ => True) got
    (fun _ _ => loadContLoop_begins reads _ 0) fun _ _ => trivial
  obtain ⟨loadBuffer, granted, segments⟩ := wp_ok run loaded
  have below := sound.below _ _ _ granted
  refine ⟨begins_of_fileInfo reads got segments, ?_⟩
  rw [ContRoom, ← pages]
  omega

/-! ## A machine on which files are loaded -/

/-- All of physical memory for pages, files that are read up to their end, and buffers that hold
`stack` before the header is read and `pool` before the table is. -/
def Firmware.over (file : EfiFile) (stack pool : Mem) : Firmware where
  allocatePages := Firmware.whole.allocatePages
  allocatePool := Firmware.whole.allocatePool
  setPosition := Firmware.whole.setPosition
  read _ position _ := if position ≤ file.bytes.length then .ok () else .error (efierr 7)
  indeterminate
    | [] => stack
    | _ :: _ => pool

section Over

variable {stack pool : Mem} {used : Nat}

theorem over_soundPages : (Firmware.over file stack pool).SoundPages :=
  ⟨Firmware.whole_soundPages.aligned, Firmware.whole_soundPages.below,
    Firmware.whole_soundPages.fresh⟩

theorem over_readsFile : (Firmware.over file stack pool).ReadsFile file where
  within _ _ _ inside := if_pos inside
  beyond _ _ _ behind := ⟨efierr 7, if_neg (Nat.not_le_of_lt behind)⟩

theorem over_read_ok {h : List Event} {position : Nat} {size : UINTN} {e : EfiError}
    (inside : position ≤ file.bytes.length) :
    ¬(Firmware.over file stack pool).read h position size = .error e := by
  intro refused
  have reads : (Firmware.over file stack pool).ReadsFile file := over_readsFile
  have ok := reads.within h position size inside
  rw [refused] at ok
  cases ok

/-- The headers are read over what the buffers held. -/
theorem over_fileInfo (begins : file.Begins (file.headerOver stack)
    (file.segmentsOver (file.headerOver stack) pool)) :
    ∃ buffer table t, elfGetFileInfo (Firmware.over file stack pool) file openedMachine =
        .ok (file.headerOver stack, buffer, table) t ∧
      loadable (phdrTable (file.headerOver stack) table) =
        file.segmentsOver (file.headerOver stack) pool ∧ Stacked t.trace 0 := by
  have run : wp (elfGetFileInfo (Firmware.over file stack pool) file)
      (fun r t => r.1 = file.headerOver stack ∧
        loadable (phdrTable r.1 r.2.2) = file.segmentsOver (file.headerOver stack) pool ∧
        Stacked t.trace 0) (fun _ _ => False) openedMachine := by
    -- nothing was asked of the firmware yet, so the header lies over `stack`
    have header : Elf64Ehdr.decode (filled (Firmware.over file stack pool) openedMachine.trace
        (file.delivered openedMachine.vars.position 64)) = file.headerOver stack := rfl
    simp only [elfGetFileInfo, wp_bind, wp_readBuffer, wp_onError, wp_setPosition,
      wp_allocatePool, wp_setInfo, wp_freePool, wp_throw, wp_pure, wp_faultIf, header]
    refine ⟨fun _ => ?_, fun e refused => ?_⟩
    · refine wp_mono elfVerifyEhdr_spec ?_ ?_
      · rintro _ _ ⟨rfl, _⟩
        refine ⟨fun large => absurd begins.small (by omega), fun _ => ⟨fun buffer hbuffer =>
          ⟨fun _ => ⟨fun _ => ⟨fun sections hsections => ?_, fun e refused => by cases refused⟩,
          fun e refused => ?_⟩, fun e refused => by cases refused⟩, fun e refused => by cases refused⟩⟩
        · -- both pool buffers are above the pages
          cases hbuffer
          cases hsections
          refine ⟨trivial, rfl, rfl, ?_⟩
          intro b hb
          cases hb with
          | head => exact Nat.le_refl _
          | tail _ hb =>
            cases hb with
            | head => exact Nat.le_refl _
            | tail _ hb => cases hb
        · exact over_read_ok begins.table refused
      · rintro e _ ⟨_, _, rejected⟩
        exact absurd begins.accepted rejected
    · exact over_read_ok (Nat.zero_le _) refused
  cases got : elfGetFileInfo (Firmware.over file stack pool) file openedMachine with
  | error e t => exact absurd (wp_error run got) id
  | ok r t =>
    obtain ⟨ehdr, buffer, table⟩ := r
    obtain ⟨same, segs, stacked⟩ := wp_ok run got
    dsimp only at same segs
    rw [same] at got segs
    exact ⟨buffer, table, t, by rw [same], segs, stacked⟩

theorem over_loadDiscontLoop (rest : List Elf64Phdr) (index : Nat)
    (stacked : Stacked s.trace used) (room : used + pagesOf (loadable rest) ≤ 2 ^ 40)
    (begins : ∀ phdr ∈ loadable rest, file.seek phdr.pOffset ≤ file.bytes.length) :
    wp (loadDiscontLoop (Firmware.over file stack pool) file index rest) (fun _ _ => True)
      (fun _ _ => False) s := by
  induction rest generalizing index s used with
  | nil => trivial
  | cons phdr rest ih =>
    by_cases hload : phdr.pType = ptLoad
    · rw [loadable_cons_of_load hload] at room begins
      rw [List.forall_mem_cons] at begins
      rw [pagesOf_cons] at room
      -- there are pages left for this segment and those behind it
      obtain ⟨paddr, granted, _, stacked'⟩ := whole_grants (n := segmentPages phdr) stacked (by omega)
      have granted' : (Firmware.over file stack pool).allocatePages s.trace (segmentPages phdr) =
        .ok paddr := granted
      simp only [loadDiscontLoop, if_pos hload, loadDiscontSegment, wp_bind, wp_allocatePages,
        wp_zeroMem, wp_setPosition, wp_readPages, setSection, wp_setInfo, granted']
      refine ⟨fun _ same => ?_, fun e refused => by cases refused⟩
      cases same
      refine ⟨fun _ => ⟨fun _ => ?_, fun e refused => ?_⟩, fun e refused => by cases refused⟩
      · exact ih (index + 1) stacked' (by omega) begins.2
      · exact over_read_ok begins.1 refused
    · rw [loadable_cons_of_not_load hload] at room begins
      simp only [loadDiscontLoop, if_neg hload]
      exact ih index stacked room begins

theorem over_loadContLoop {paddr : UINT64} (rest : List Elf64Phdr) (index : Nat)
    (begins : ∀ phdr ∈ loadable rest, file.seek phdr.pOffset ≤ file.bytes.length) :
    wp (loadContLoop (Firmware.over file stack pool) file index paddr rest)
      (fun _ _ => True) (fun _ _ => False) s := by
  induction rest generalizing index paddr s with
  | nil => trivial
  | cons phdr rest ih =>
    by_cases hload : phdr.pType = ptLoad
    · rw [loadable_cons_of_load hload, List.forall_mem_cons] at begins
      simp only [loadContLoop, if_pos hload, loadContSegment, wp_bind, wp_setPosition, wp_readPages,
        setSection, wp_setInfo]
      refine ⟨fun _ => ⟨fun _ => ?_, fun e refused => ?_⟩, fun e refused => by cases refused⟩
      · exact ih (index + 1) begins.2
      · exact over_read_ok begins.1 refused
    · rw [loadable_cons_of_not_load hload] at begins
      simp only [loadContLoop, if_neg hload]
      exact ih index begins

/-- A run that can end in one way only. -/
theorem exists_ok_of_wp {x : ElfM Unit} (run : wp x (fun _ _ => True) (fun _ _ => False) s) :
    ∃ s', x s = .ok () s' := by
  cases h : x s with
  | ok _ s' => exact ⟨s', rfl⟩
  | error e s' => exact absurd (wp_error run h) id

theorem over_elfLoadFileDiscont
    (begins : file.Begins (file.headerOver stack) (file.segmentsOver (file.headerOver stack) pool))
    (room : DiscontRoom (file.segmentsOver (file.headerOver stack) pool)) :
    ∃ s', elfLoadFileDiscont (Firmware.over file stack pool) file openedMachine = .ok () s' := by
  obtain ⟨buffer, table, t, got, segs, stacked⟩ := over_fileInfo begins
  have inside := begins.segments
  rw [DiscontRoom] at room
  rw [← segs] at room inside
  apply exists_ok_of_wp
  rw [elfLoadFileDiscont, wp_bind]
  refine wp_of_ok got ?_
  rw [wp_onError]
  exact wp_mono (over_loadDiscontLoop _ 0 stacked (by omega) inside) (fun _ _ h => h)
    (fun _ _ wrong => absurd wrong id)

theorem over_elfLoadFileCont
    (begins : file.Begins (file.headerOver stack) (file.segmentsOver (file.headerOver stack) pool))
    (room : ContRoom (file.segmentsOver (file.headerOver stack) pool)) :
    ∃ s', elfLoadFileCont (Firmware.over file stack pool) file openedMachine = .ok () s' := by
  obtain ⟨buffer, table, t, got, segs, stacked⟩ := over_fileInfo begins
  have inside := begins.segments
  have count := elfGetSectionSize_toNat (file.headerOver stack) table
  change _ = bufferPages (loadable (phdrTable (file.headerOver stack) table)) at count
  rw [ContRoom] at room
  rw [← segs] at room inside
  rw [← count] at room
  -- the buffer is the first run of pages that is asked for
  obtain ⟨loadBuffer, granted, _⟩ := whole_grants stacked
    (show 0 + (elfGetSectionSize (file.headerOver stack) table).toNat ≤ 2 ^ 40 by omega)
  have granted' : (Firmware.over file stack pool).allocatePages t.trace
    (elfGetSectionSize (file.headerOver stack) table) = .ok loadBuffer := granted
  apply exists_ok_of_wp
  rw [elfLoadFileCont, wp_bind]
  refine wp_of_ok got ?_
  simp only [wp_bind, wp_onError, wp_allocatePages, wp_zeroMem, granted']
  refine ⟨fun _ same => ?_, fun e refused => by cases refused⟩
  cases same
  exact wp_mono (over_loadContLoop _ 0 inside) (fun _ _ h => h)
    (fun _ _ wrong => absurd wrong id)

end Over

/-! ## Both loaders -/

theorem rejectsCutShort_iff {load : Firmware → EfiFile → ElfM Unit}
    {room : List Elf64Phdr → Prop}
    (shows : ∀ fw s s' ehdr phdrs table t, fw.SoundPages → fw.ReadsFile file →
      load fw file s = .ok () s' → elfGetFileInfo fw file s = .ok (ehdr, phdrs, table) t →
      file.Begins ehdr (loadable (phdrTable ehdr table)) ∧
        room (loadable (phdrTable ehdr table)))
    (loads : ∀ stack pool,
      file.Begins (file.headerOver stack) (file.segmentsOver (file.headerOver stack) pool) →
      room (file.segmentsOver (file.headerOver stack) pool) →
      ∃ s', load (Firmware.over file stack pool) file openedMachine = .ok () s') :
    RejectsCutShort load file ↔ ∀ stack pool,
      file.Begins (file.headerOver stack) (file.segmentsOver (file.headerOver stack) pool) →
      room (file.segmentsOver (file.headerOver stack) pool) →
      ¬file.CutsShortElf (file.headerOver stack) (file.segmentsOver (file.headerOver stack) pool) := by
  constructor
  · intro rejects stack pool begins hasRoom
    obtain ⟨s', loaded⟩ := loads stack pool begins hasRoom
    -- on this machine the buffers hold `stack` and `pool` when the file is read
    obtain ⟨buffer, table, t, got, segs, _⟩ := over_fileInfo begins
    have holds := rejects _ _ _ _ _ _ _ over_soundPages over_readsFile rfl loaded got
    rw [segs] at holds
    rw [begins.cutsShort_iff, not_not]
    exact holds
  · intro whole fw s s' ehdr phdrs table t sound reads start loaded got
    obtain ⟨begins, hasRoom⟩ := shows fw s s' ehdr phdrs table t sound reads loaded got
    -- whatever the buffers held, it is a choice of `stack` and `pool`
    obtain ⟨stack, pool, rfl, segs⟩ := (wp_ok elfGetFileInfo_spec got).over start
    dsimp only at segs begins hasRoom
    rw [segs] at begins hasRoom
    have notShort := whole stack pool begins hasRoom
    rw [begins.cutsShort_iff, not_not] at notShort
    rw [segs]
    exact notShort

/-- A file that is cut short is rejected unless every read of it begins inside the file. -/
theorem rejects_cut_short_iff (file : EfiFile) :
    (RejectsCutShort (elfLoadFile · · .discontig) file ↔ ∀ stack pool,
      file.Begins (file.headerOver stack) (file.segmentsOver (file.headerOver stack) pool) →
      DiscontRoom (file.segmentsOver (file.headerOver stack) pool) →
      ¬file.CutsShortElf (file.headerOver stack)
        (file.segmentsOver (file.headerOver stack) pool)) ∧
    (RejectsCutShort (elfLoadFile · · .contig) file ↔ ∀ stack pool,
      file.Begins (file.headerOver stack) (file.segmentsOver (file.headerOver stack) pool) →
      ContRoom (file.segmentsOver (file.headerOver stack) pool) →
      ¬file.CutsShortElf (file.headerOver stack)
        (file.segmentsOver (file.headerOver stack) pool)) :=
  ⟨rejectsCutShort_iff (fun _ _ _ _ _ _ _ sound reads => discont_begins sound reads)
      (fun _ _ => over_elfLoadFileDiscont),
    rejectsCutShort_iff (fun _ _ _ _ _ _ _ sound reads => cont_begins sound reads)
      (fun _ _ => over_elfLoadFileCont)⟩

/-- The last two bytes of its one segment are missing. -/
def cutShortElf : EfiFile := ⟨oneSegmentBytes 3 5 [0xAA], by decide +kernel⟩

theorem cutShortElf_not_holds {fw : Firmware} {s t : Machine ElfVars} {ehdr : Elf64Ehdr}
    {phdrs : UINT64} {table : Mem} (start : s.vars.position = 0)
    (got : elfGetFileInfo fw cutShortElf s = .ok (ehdr, phdrs, table) t) :
    ¬cutShortElf.HoldsElf ehdr (loadable (phdrTable ehdr table)) := by
  intro holds
  -- header and table are complete, the segment is not
  have inside : cutShortElf.HeadersInside :=
    (EfiFile.of_elfBytes (show cutShortElf.bytes = elfBytes [oneSegmentPhdr 3 5] _ from rfl)
      (by decide)).1
  have segs : loadable (phdrTable ehdr table) = [oneSegmentPhdr 3 5] := by
    rw [((wp_ok elfGetFileInfo_spec got).of_headersInside inside start).2]
    decide +kernel
  rw [segs] at holds
  have last := holds.segments _ List.mem_cons_self 122 (by decide) (by decide)
  exact absurd last (by decide +kernel)

theorem cut_short_loaded :
    ¬RejectsCutShort (elfLoadFile · · .discontig) cutShortElf ∧
      ¬RejectsCutShort (elfLoadFile · · .contig) cutShortElf := by
  constructor
  · intro rejects
    have loaded := eq_ok_of_succeeds (s := openedMachine)
      (x := elfLoadFileDiscont (.over cutShortElf (fun _ => 0) (fun _ => 0)) cutShortElf)
      (by decide +kernel)
    obtain ⟨t, ehdr, phdrs, table, got, _⟩ := elfLoadFileDiscont_ok over_soundPages loaded
    exact cutShortElf_not_holds rfl got
      (rejects _ _ _ _ _ _ _ over_soundPages over_readsFile rfl loaded got)
  · intro rejects
    have loaded := eq_ok_of_succeeds (s := openedMachine)
      (x := elfLoadFileCont (.over cutShortElf (fun _ => 0) (fun _ => 0)) cutShortElf)
      (by decide +kernel)
    obtain ⟨t, ehdr, phdrs, table, got, _⟩ := elfLoadFileCont_ok over_soundPages loaded
    exact cutShortElf_not_holds rfl got
      (rejects _ _ _ _ _ _ _ over_soundPages over_readsFile rfl loaded got)

end Loads

end MidnightOS.Nyxboot
