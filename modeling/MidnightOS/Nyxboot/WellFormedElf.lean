import MidnightOS.Nyxboot.BumpFirmware
import MidnightOS.Nyxboot.LoadCont

/-! # Well-formed program files

In an `EfiFile.WellFormed` file every range that a header describes lies inside
the file.  What the loaders read of such a file does not depend on what its
buffers held before, so the image is one of the file alone, and the two loaders
agree on it (`cont_agrees_with_discont`).
-/

namespace MidnightOS.Nyxboot

open MidnightOS.Lib

/-! ## What is read from inside the file -/

/-- The byte at an offset of the file. -/
def EfiFile.byte (file : EfiFile) (offset : Nat) : Byte := file.bytes.getD offset 0

theorem EfiFile.seek_of_le {file : EfiFile} {position : UINT64}
    (h : position.toNat ≤ file.bytes.length) : file.seek position = position.toNat := by
  have hlt := file.size_lt
  by_cases hall : position = 0xFFFFFFFFFFFFFFFF#64
  · subst hall
    rw [EfiFile.seek, if_pos rfl]
    simp only [BitVec.toNat_ofNat] at h ⊢
    omega
  · rw [EfiFile.seek, if_neg hall]

theorem EfiFile.length_delivered {file : EfiFile} {position : Nat} {size : UINTN}
    (h : position + size.toNat ≤ file.bytes.length) :
    (file.delivered position size).length = size.toNat := by
  rw [EfiFile.delivered, List.length_take, List.length_drop]
  omega

theorem EfiFile.getElem?_delivered {file : EfiFile} {position i : Nat} {size : UINTN}
    (hi : i < size.toNat) : (file.delivered position size)[i]? = file.bytes[position + i]? := by
  rw [EfiFile.delivered, List.getElem?_take_of_lt hi, List.getElem?_drop]

/-- A buffer filled from inside the file holds bytes of the file only. -/
theorem EfiFile.filled_delivered {file : EfiFile} {position i : Nat} {size : UINTN}
    (h : position + size.toNat ≤ file.bytes.length) (hi : i < size.toNat) (fw : Firmware)
    (hist : List Event) :
    filled fw hist (file.delivered position size) i = file.byte (position + i) := by
  have hlt : position + i < file.bytes.length := by omega
  rw [filled, EfiFile.byte, List.getD_eq_getElem?_getD, List.getD_eq_getElem?_getD,
    file.getElem?_delivered hi, List.getElem?_eq_getElem hlt]
  rfl

theorem Elf64Ehdr.decode_congr {m m' : Mem} (h : ∀ i < 64, m i = m' i) :
    Elf64Ehdr.decode m = Elf64Ehdr.decode m' := by
  have hload : ∀ n a, a + n ≤ 64 → loadLE m n a = loadLE m' n a :=
    fun n a ha => loadLE_congr fun i hi => h (a + i) (by omega)
  have hident : slice m 0 16 = slice m' 0 16 := slice_congr fun i hi => h (0 + i) (by omega)
  simp only [Elf64Ehdr.decode, hident, hload 2 16 (by omega), hload 2 18 (by omega),
    hload 4 20 (by omega), hload 8 24 (by omega), hload 8 32 (by omega), hload 2 54 (by omega),
    hload 2 56 (by omega)]

theorem Elf64Phdr.decode_congr {m m' : Mem} {a : Nat} (h : ∀ i < 56, m (a + i) = m' (a + i)) :
    Elf64Phdr.decode m a = Elf64Phdr.decode m' a := by
  have hload : ∀ n k, k + n ≤ 56 → loadLE m n (a + k) = loadLE m' n (a + k) := by
    intro n k hk
    refine loadLE_congr fun i hi => ?_
    rw [Nat.add_assoc]
    exact h (k + i) (by omega)
  have h0 : loadLE m 4 a = loadLE m' 4 a := hload 4 0 (by omega)
  simp only [Elf64Phdr.decode, h0, hload 4 4 (by omega), hload 8 8 (by omega),
    hload 8 16 (by omega), hload 8 32 (by omega), hload 8 40 (by omega)]

/-! ## Well-formed files -/

def EfiFile.ehdr (file : EfiFile) : Elf64Ehdr := .decode file.byte

/-- The program headers of the file. -/
def EfiFile.phdrs (file : EfiFile) : List Elf64Phdr :=
  phdrTable file.ehdr fun i => file.byte (file.ehdr.ePhoff.toNat + i)

/-- The image of the file, read from its start. -/
def EfiFile.elfImage (file : EfiFile) : ElfImage where
  entry := file.ehdr.eEntry
  segments := (loadable file.phdrs).map file.segment

/-- The header and the records of the program header table lie inside the file. -/
structure EfiFile.HeadersInside (file : EfiFile) : Prop where
  header : 64 ≤ file.bytes.length
  recordSize : 56 ≤ file.ehdr.ePhentsize.toNat
  tableSize : phdrBufferSize file.ehdr < 2 ^ 31
  table : file.ehdr.ePhoff.toNat + phdrBufferSize file.ehdr ≤ file.bytes.length

/-- So do the segments, and none has more bytes in the file than in memory. -/
structure EfiFile.WellFormed (file : EfiFile) : Prop extends file.HeadersInside where
  segments : ∀ phdr ∈ loadable file.phdrs,
    phdr.pOffset.toNat + phdr.pFilesz.toNat ≤ file.bytes.length
  filesz_le : ∀ phdr ∈ loadable file.phdrs, phdr.pFilesz.toNat ≤ phdr.pMemsz.toNat
  memsz_lt : ∀ phdr ∈ loadable file.phdrs, phdr.pMemsz.toNat + 4095 < 2 ^ 64

section File

variable {fw : Firmware} {file : EfiFile} {s s' t : Machine ElfVars} {ehdr : Elf64Ehdr}
  {phdrs : UINT64} {table : Mem} {phdr : Elf64Phdr}

/-- Two tables that agree on the records have the same records. -/
theorem phdrTable_congr {m m' : Mem} (hsize : 56 ≤ ehdr.ePhentsize.toNat)
    (h : ∀ i < phdrBufferSize ehdr, m i = m' i) : phdrTable ehdr m = phdrTable ehdr m' := by
  refine List.map_congr_left fun k hk => Elf64Phdr.decode_congr fun i hi => h _ ?_
  have hk' : k + 1 ≤ ehdr.ePhnum.toNat := List.mem_range.mp hk
  -- record `k` ends where record `k + 1` begins, or before
  calc ehdr.ePhentsize.toNat * k + i
      < ehdr.ePhentsize.toNat * k + ehdr.ePhentsize.toNat := by omega
    _ = (k + 1) * ehdr.ePhentsize.toNat := by rw [Nat.add_mul, Nat.one_mul, Nat.mul_comm]
    _ ≤ phdrBufferSize ehdr := Nat.mul_le_mul_right _ hk'

/-- Read from its start, the file gives its own headers. -/
theorem GotFileInfo.of_headersInside (h : GotFileInfo fw file s t ehdr phdrs table)
    (hwf : file.HeadersInside) (hpos : s.vars.position = 0) :
    ehdr = file.ehdr ∧ phdrTable ehdr table = file.phdrs := by
  have hehdr : ehdr = file.ehdr := by
    rw [h.ehdr_eq, hpos]
    refine Elf64Ehdr.decode_congr fun i hi => ?_
    have hsize : (64 : UINTN).toNat = 64 := rfl
    rw [file.filled_delivered (by rw [hsize, Nat.zero_add]; exact hwf.header)
      (by rw [hsize]; exact hi), Nat.zero_add]
  subst hehdr
  refine ⟨rfl, ?_⟩
  obtain ⟨hist, htable⟩ := h.table_eq
  have hsize : (BitVec.ofNat 64 (phdrBufferSize file.ehdr)).toNat = phdrBufferSize file.ehdr := by
    have := hwf.tableSize
    rw [BitVec.toNat_ofNat]
    omega
  have hseek : file.seek file.ehdr.ePhoff = file.ehdr.ePhoff.toNat :=
    EfiFile.seek_of_le (by have := hwf.table; omega)
  rw [htable, hseek]
  refine phdrTable_congr hwf.recordSize fun i hi => ?_
  exact file.filled_delivered (by rw [hsize]; exact hwf.table) (by rw [hsize]; exact hi) fw hist

theorem EfiFile.WellFormed.image_eq (hwf : file.WellFormed)
    (h : GotFileInfo fw file s t ehdr phdrs table) (hpos : s.vars.position = 0) :
    file.image ehdr table = file.elfImage := by
  obtain ⟨hehdr, hphdrs⟩ := h.of_headersInside hwf.toHeadersInside hpos
  rw [EfiFile.image, EfiFile.elfImage, hphdrs, hehdr]

/-- Byte `k` of a segment: from the file, then zero. -/
theorem EfiFile.WellFormed.contents (hwf : file.WellFormed) (hphdr : phdr ∈ loadable file.phdrs)
    (k : Nat) : (file.segment phdr).contents k =
      if k < phdr.pFilesz.toNat then file.byte (phdr.pOffset.toNat + k) else 0 := by
  have hin := hwf.segments phdr hphdr
  have hseek : file.seek phdr.pOffset = phdr.pOffset.toNat := EfiFile.seek_of_le (by omega)
  show (file.delivered (file.seek phdr.pOffset) phdr.pFilesz).getD k 0 = _
  rw [hseek, List.getD_eq_getElem?_getD]
  by_cases h : k < phdr.pFilesz.toNat
  · rw [if_pos h, file.getElem?_delivered h, EfiFile.byte, List.getD_eq_getElem?_getD]
  · rw [if_neg h, List.getElem?_eq_none]
    · rfl
    · rw [file.length_delivered hin]
      omega

theorem EfiFile.WellFormed.slackSize_eq (hwf : file.WellFormed)
    (hphdr : phdr ∈ loadable file.phdrs) : slackSize phdr = phdr.pMemsz.toNat + 4095 :=
  Nat.mod_eq_of_lt (hwf.memsz_lt phdr hphdr)

/-- The pages of a segment are enough for its bytes in memory. -/
theorem EfiFile.WellFormed.memsz_le (hwf : file.WellFormed) (hphdr : phdr ∈ loadable file.phdrs) :
    phdr.pMemsz.toNat ≤ 4096 * (segmentPages phdr).toNat := by
  rw [segmentPages_toNat, hwf.slackSize_eq hphdr]
  omega

theorem EfiFile.WellFormed.segmentFits (hwf : file.WellFormed)
    (hphdr : phdr ∈ loadable file.phdrs) : file.SegmentFits phdr := by
  have hle := hwf.filesz_le phdr hphdr
  have hpages := hwf.memsz_le hphdr
  have hlen : (file.segmentBytes phdr).length ≤ phdr.pFilesz.toNat := by
    rw [EfiFile.segmentBytes, EfiFile.delivered]
    exact List.length_take_le _ _
  rw [EfiFile.SegmentFits]
  omega

/-! ## The two loaders agree -/

/-- Where both loaders succeed, they load the same; the contiguous one loads the
    sections one after another into the one run of pages it obtains. -/
theorem cont_agrees_with_discont {fw' : Firmware} {t' : Machine ElfVars} (hwf : file.WellFormed)
    (hsum : ((loadable file.phdrs).map fun phdr => phdr.pMemsz.toNat + 4095).sum < 2 ^ 52)
    (hfw : fw.SoundPages) (hfw' : fw'.SoundPages) (hpos : s.vars.position = 0)
    (hpos' : s'.vars.position = 0) (hcont : elfLoadFileCont fw file s = .ok () t)
    (hdiscont : elfLoadFileDiscont fw' file s' = .ok () t') :
    SameLoad t t' ∧ ∃ loadBuffer pageCount evs, t.trace = evs ++ s.trace ∧
      obtainedRuns evs = [(loadBuffer, pageCount)] ∧
      Contiguous loadBuffer.toNat t.vars.info.sectionInfos ∧
      ∀ sec ∈ t.vars.info.sectionInfos, loadBuffer.toNat ≤ sec.phys.toNat ∧
        sec.phys.toNat + 4096 * sec.pageCount.toNat ≤ loadBuffer.toNat + 4096 * pageCount.toNat := by
  obtain ⟨u, ehdr, phdrs, table, _, hinfo, hloaded⟩ := elfLoadFileCont_ok hfw hcont
  obtain ⟨u', ehdr', phdrs', table', _, hinfo', _, hloaded'⟩ := elfLoadFileDiscont_ok hfw' hdiscont
  obtain ⟨_, hphdrs⟩ := hinfo.of_headersInside hwf.toHeadersInside hpos
  obtain ⟨_, hphdrs'⟩ := hinfo'.of_headersInside hwf.toHeadersInside hpos'
  -- nothing wraps: the buffer is as large as the sum says
  have hslack : (loadable file.phdrs).map slackSize =
      (loadable file.phdrs).map fun phdr => phdr.pMemsz.toNat + 4095 :=
    List.map_congr_left fun phdr hphdr => hwf.slackSize_eq hphdr
  rw [hphdrs] at hloaded
  rw [hphdrs'] at hloaded'
  have hl' := hloaded' fun phdr hphdr => hwf.segmentFits hphdr
  obtain ⟨loadBuffer, hl⟩ := hloaded (fun phdr hphdr => hwf.segmentFits hphdr) (by
    rw [← hphdrs]
    refine totalPages_le_sectionSize ?_ ?_
    · rw [hphdrs]
      intro phdr hphdr
      refine Nat.lt_of_le_of_lt (List.single_le_sum (fun _ _ => Nat.zero_le _) _ ?_) hsum
      rw [hwf.slackSize_eq hphdr]
      exact List.mem_map_of_mem hphdr
    · rw [hphdrs, hslack]
      omega)
  -- both loaders read the same image from the file
  have himage := hwf.image_eq hinfo hpos
  have himage' := hwf.image_eq hinfo' hpos'
  refine ⟨?_, loadBuffer, elfGetSectionSize ehdr table, ?_⟩
  · exact (himage ▸ hl.held).same (himage' ▸ hl'.held)
  · obtain ⟨evs, htrace, hruns⟩ := hl.runs
    exact ⟨evs, htrace, hruns, hl.contiguous, hl.inside⟩

end File

/-! ## Files made from headers -/

def Elf64Phdr.encode (phdr : Elf64Phdr) : List Byte :=
  leBytes 4 phdr.pType ++ (leBytes 4 phdr.pFlags ++ (leBytes 8 phdr.pOffset ++
    (leBytes 8 phdr.pVaddr ++ (leBytes 8 0 ++ (leBytes 8 phdr.pFilesz ++
    (leBytes 8 phdr.pMemsz ++ leBytes 8 4096))))))

/-- The header of a program file with `phnum` program headers right after it. -/
def ehdrBytes (phnum : UINT16) : List Byte :=
  [0x7F, 0x45, 0x4C, 0x46, 2, 1, 1, 0, 0, 0, 0, 0, 0, 0, 0, 0] ++ (leBytes 2 2 ++ (leBytes 2 62 ++
    (leBytes 4 1 ++ (leBytes 8 0x400000 ++ (leBytes 8 64 ++ (leBytes 8 0 ++ (leBytes 4 0 ++
    (leBytes 2 64 ++ (leBytes 2 56 ++ (leBytes 2 phnum ++ leBytes 6 0))))))))))

/-- A program file with these program headers, which `data` follows. -/
def elfBytes (phdrs : List Elf64Phdr) (data : List Byte) : List Byte :=
  ehdrBytes (BitVec.ofNat 16 phdrs.length) ++ (phdrs.flatMap Elf64Phdr.encode ++ data)

theorem Elf64Phdr.length_encode (phdr : Elf64Phdr) : phdr.encode.length = 56 := by
  simp [Elf64Phdr.encode]

theorem length_ehdrBytes (phnum : UINT16) : (ehdrBytes phnum).length = 64 := by
  simp [ehdrBytes]

theorem Elf64Phdr.decode_encode {phdr : Elf64Phdr} {m : Mem} {a : Nat}
    (h : HasBytes m a phdr.encode) : Elf64Phdr.decode m a = phdr := by
  simp only [Elf64Phdr.encode, hasBytes_append, length_leBytes, Nat.add_assoc] at h
  obtain ⟨type, flags, offset, vaddr, _, filesz, memsz, _⟩ := h
  simp only [Elf64Phdr.decode, type.loadLE, flags.loadLE, offset.loadLE, vaddr.loadLE,
    filesz.loadLE, memsz.loadLE]

/-- A header that `ehdrBytes` encodes is accepted, and has the table right after it. -/
theorem Elf64Ehdr.decode_ehdrBytes {m : Mem} {phnum : UINT16} (h : HasBytes m 0 (ehdrBytes phnum)) :
    (Elf64Ehdr.decode m).Accepted ∧ (Elf64Ehdr.decode m).ePhoff = 64 ∧
      (Elf64Ehdr.decode m).ePhentsize = 56 ∧ (Elf64Ehdr.decode m).ePhnum = phnum := by
  simp only [ehdrBytes, hasBytes_append, length_leBytes, Nat.add_assoc] at h
  obtain ⟨ident, type, machine, version, _, phoff, _, _, _, phentsize, phnum, _⟩ := h
  have hident : slice m 0 16 = [0x7F, 0x45, 0x4C, 0x46, 2, 1, 1, 0, 0, 0, 0, 0, 0, 0, 0, 0] := ident
  refine ⟨⟨?_, ?_, ?_, type.loadLE, machine.loadLE, version.loadLE⟩, phoff.loadLE,
    phentsize.loadLE, phnum.loadLE⟩
  · simp [Elf64Ehdr.decode, hident]
  · simp [Elf64Ehdr.decode, hident]
  · simp [Elf64Ehdr.decode, hident]

section Made

variable {file : EfiFile} {phdrs : List Elf64Phdr} {data : List Byte}

theorem length_elfBytes : (elfBytes phdrs data).length = 64 + 56 * phdrs.length + data.length := by
  have records : (phdrs.flatMap Elf64Phdr.encode).length = 56 * phdrs.length := by
    simp [List.length_flatMap, Elf64Phdr.length_encode, Nat.mul_comm]
  rw [elfBytes, List.length_append, List.length_append, length_ehdrBytes, records]
  omega

/-- A file made from headers has these headers. -/
theorem EfiFile.of_elfBytes (hbytes : file.bytes = elfBytes phdrs data)
    (hlen : phdrs.length < 2 ^ 16) :
    file.HeadersInside ∧ file.ehdr.Accepted ∧ file.phdrs = phdrs := by
  have contents : HasBytes file.byte 0 (elfBytes phdrs data) := hbytes ▸ hasBytes_getD file.bytes
  rw [elfBytes, hasBytes_append, hasBytes_append, length_ehdrBytes] at contents
  obtain ⟨header, records, _⟩ := contents
  obtain ⟨accepted, phoff, phentsize, phnum⟩ := Elf64Ehdr.decode_ehdrBytes header
  change file.ehdr.Accepted at accepted
  change file.ehdr.ePhoff = 64 at phoff
  change file.ehdr.ePhentsize = 56 at phentsize
  change file.ehdr.ePhnum = _ at phnum
  have count : file.ehdr.ePhnum.toNat = phdrs.length := by
    rw [phnum, BitVec.toNat_ofNat, Nat.mod_eq_of_lt hlen]
  have size : phdrBufferSize file.ehdr = phdrs.length * 56 := by
    rw [phdrBufferSize, count, phentsize]
    rfl
  have length := congrArg List.length hbytes
  rw [length_elfBytes] at length
  refine ⟨⟨by omega, by rw [phentsize]; decide, by omega, ?_⟩, accepted, ?_⟩
  · rw [phoff, size, show (64 : UINT64).toNat = 64 from rfl]
    omega
  · apply List.ext_getElem
    · simp [EfiFile.phdrs, phdrTable, count]
    · intro i _ hi
      -- record `i` stands 56 * i bytes behind the header
      have record := records.flatMap Elf64Phdr.length_encode i hi
      simp only [EfiFile.phdrs, phdrTable, List.getElem_map, List.getElem_range, phentsize, phoff]
      apply Elf64Phdr.decode_encode
      rw [hasBytes_iff] at record ⊢
      intro k hk
      rw [← record k hk, Nat.add_assoc]
      rfl

end Made

/-- A segment at `0x400000`, right after the headers of its file. -/
def oneSegmentPhdr (filesz memsz : UINT64) : Elf64Phdr :=
  ⟨ptLoad, 5, 120, 0x400000, filesz, memsz⟩

def oneSegmentBytes (filesz memsz : UINT64) (data : List Byte) : List Byte :=
  elfBytes [oneSegmentPhdr filesz memsz] data

/-- The three bytes of code of `sampleElf`, in a segment of five. -/
def textPhdr : Elf64Phdr := ⟨ptLoad, 5, 176, 0x400000, 3, 5⟩

/-- Its two bytes of data, in a segment of two pages. -/
def dataPhdr : Elf64Phdr := ⟨ptLoad, 6, 179, 0x402000, 2, 0x1001⟩

def sampleElf : EfiFile :=
  ⟨elfBytes [textPhdr, dataPhdr] [0xAA, 0xBB, 0xCC, 0xDD, 0xEE], by decide +kernel⟩

/-- A machine that has just opened a file and holds no memory. -/
def openedMachine : Machine ElfVars := ⟨fun _ => 0xFF, [], ⟨0, ⟨0, 0, 0, []⟩⟩⟩

theorem sampleElf_wellFormed : sampleElf.WellFormed := by
  refine ⟨⟨?_, ?_, ?_, ?_⟩, ?_, ?_, ?_⟩
  all_goals decide +kernel

theorem sampleElf_segments : loadable sampleElf.phdrs = [textPhdr, dataPhdr] := by decide +kernel

theorem cont_agrees_with_discont_sample :
    SameLoad (after (elfLoadFileCont (Firmware.bump (2 ^ 30)) sampleElf) openedMachine)
      (after (elfLoadFileDiscont (Firmware.bump (2 ^ 20)) sampleElf) openedMachine) :=
  (cont_agrees_with_discont sampleElf_wellFormed (by decide +kernel)
    (Firmware.bump_soundPages (2 ^ 30) (by decide)) (Firmware.bump_soundPages (2 ^ 20) (by decide))
    rfl rfl (eq_ok_of_succeeds (by decide +kernel)) (eq_ok_of_succeeds (by decide +kernel))).1

end MidnightOS.Nyxboot
