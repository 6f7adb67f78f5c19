import MidnightOS.Nyxboot.Efi

/-! # The ELF loader (`elf.c`)

Functions and fields follow the source.  The variables of a run are the position
of the open file and `*info`.  Buffers that
only the loader itself writes (the two header buffers, the section array) are
values; the pages that segments are loaded into are in memory.  A segment that is
longer in the file than its pages runs on into whatever memory comes behind them,
but for these values.

A `Read` that succeeds delivers what the file has from the position on, up to
the size asked for, and the loader does not look at the size it gets back: what
was not delivered stays indeterminate.
-/

namespace MidnightOS.Nyxboot

open MidnightOS.Lib

/-! ## Data -/

def ptLoad : UINT32 := 1

/-- `Elf64_Ehdr`, without the fields that nothing reads. -/
structure Elf64Ehdr where
  eIdent : List Byte
  eType : UINT16
  eMachine : UINT16
  eVersion : UINT32
  eEntry : UINT64
  ePhoff : UINT64
  ePhentsize : UINT16
  ePhnum : UINT16

def Elf64Ehdr.decode (m : Mem) : Elf64Ehdr where
  eIdent := slice m 0 16
  eType := loadLE m 2 16
  eMachine := loadLE m 2 18
  eVersion := loadLE m 4 20
  eEntry := loadLE m 8 24
  ePhoff := loadLE m 8 32
  ePhentsize := loadLE m 2 54
  ePhnum := loadLE m 2 56

/-- `Elf64_Phdr`, without the fields that nothing reads. -/
structure Elf64Phdr where
  pType : UINT32
  pFlags : UINT32
  pOffset : UINT64
  pVaddr : UINT64
  pFilesz : UINT64
  pMemsz : UINT64
deriving DecidableEq

def Elf64Phdr.decode (m : Mem) (a : Nat) : Elf64Phdr where
  pType := loadLE m 4 a
  pFlags := loadLE m 4 (a + 4)
  pOffset := loadLE m 8 (a + 8)
  pVaddr := loadLE m 8 (a + 16)
  pFilesz := loadLE m 8 (a + 32)
  pMemsz := loadLE m 8 (a + 40)

/-- The records of a program header table, `e_phentsize` bytes apart. -/
def phdrTable (ehdr : Elf64Ehdr) (phdrs : Mem) : List Elf64Phdr :=
  (List.range ehdr.ePhnum.toNat).map fun i => Elf64Phdr.decode phdrs (ehdr.ePhentsize.toNat * i)

/-- `elf_sectioninfo_t` -/
structure ElfSectioninfo where
  phys : UINT64
  reqVirt : UINT64
  pageCount : UINT64
  flags : UINT32
deriving DecidableEq

/-- `elf_loadinfo_t`.  `sectionInfos` is the array that `sections` points to. -/
structure ElfLoadinfo where
  entry : UINT64
  sectionCount : UINTN
  sections : UINT64
  sectionInfos : List ElfSectioninfo

inductive ElfLoadtype where
  | auto
  | contig
  | discontig
  | other (value : UINT32)

/-- The position in the open file, and `*info`. -/
structure ElfVars where
  position : Nat
  info : ElfLoadinfo

abbrev ElfM := Efi ElfVars

/-! ## The open file -/

/-- The contents of a file.  File sizes are 64-bit numbers. -/
structure EfiFile where
  bytes : List Byte
  size_lt : bytes.length < 2 ^ 64

/-- The position that `SetPosition` sets: all ones stands for the end. -/
def EfiFile.seek (file : EfiFile) (position : UINT64) : Nat :=
  if position = 0xFFFFFFFFFFFFFFFF#64 then file.bytes.length else position.toNat

/-- What a `Read` at `position` delivers. -/
def EfiFile.delivered (file : EfiFile) (position : Nat) (size : UINTN) : List Byte :=
  (file.bytes.drop position).take size.toNat

def setPosition (fw : Firmware) (file : EfiFile) (position : UINT64) : ElfM Unit := do
  let s ← get
  call (.setPosition position) (fw.setPosition s.trace position)
  modify fun s => { s with vars := { s.vars with position := file.seek position } }

/-- `Read` of `size` bytes into a buffer that nothing has been written to yet. -/
def readBuffer (fw : Firmware) (file : EfiFile) (size : UINTN) : ElfM Mem := do
  let s ← get
  call (.read size none) (fw.read s.trace s.vars.position size)
  let bytes := file.delivered s.vars.position size
  modify fun s => { s with vars := { s.vars with position := s.vars.position + bytes.length } }
  return fun i => bytes.getD i (fw.indeterminate s.trace i)

/-- `Read` of `size` bytes to `buffer`.  What is delivered is written, whether or not the pages
    there are as many. -/
def readPages (fw : Firmware) (file : EfiFile) (size : UINTN) (buffer : UINT64) : ElfM Unit := do
  let s ← get
  call (.read size (some buffer)) (fw.read s.trace s.vars.position size)
  let bytes := file.delivered s.vars.position size
  modify fun s =>
    { s with
      mem := blit s.mem buffer.toNat bytes
      vars := { s.vars with position := s.vars.position + bytes.length } }

def setInfo (f : ElfLoadinfo → ElfLoadinfo) : ElfM Unit :=
  modify fun s => { s with vars := { s.vars with info := f s.vars.info } }

/-! ## The source -/

def elfVerifyEhdr (ehdr : Elf64Ehdr) : ElfM Unit := do
  returnIf (ehdr.eIdent.take 4 ≠ [0x7F, 0x45, 0x4C, 0x46]) .compromisedData
  returnIf (ehdr.eIdent.getD 4 0 ≠ 2) .unsupported
  returnIf (ehdr.eIdent.getD 5 0 ≠ 1) .unsupported
  returnIf (ehdr.eType ≠ 2) .unsupported
  returnIf (ehdr.eMachine ≠ 62) .unsupported
  returnIf (ehdr.eVersion ≠ 1) .unsupported

def elfCountLoadable (ehdr : Elf64Ehdr) (phdrs : Mem) : UINTN :=
  (phdrTable ehdr phdrs).foldl
    (fun count phdr => if phdr.pType = ptLoad then count + 1 else count) 0

/-- `ALIGN_UP` is a macro without outer parentheses, and `/` binds tighter than
    `&`: the division is part of the mask. -/
def elfGetSectionSize (ehdr : Elf64Ehdr) (phdrs : Mem) : UINTN :=
  (phdrTable ehdr phdrs).foldl
    (fun pageCount phdr =>
      if phdr.pType = ptLoad then
        pageCount + ((phdr.pMemsz + (0x1000#64 - 1#64)) &&&
          ((~~~(0x1000#64 - 1#64)) / 0x1000#64))
      else pageCount) 0

def elfFreeLoadinfo : ElfM Unit := do
  let s ← get
  if s.vars.info.sections ≠ 0 then freePool s.vars.info.sections else pure ()
  setInfo fun info => { info with sectionCount := 0, entry := 0 }

/-- `e_phnum * e_phentsize` is an `int`. -/
def phdrBufferSize (ehdr : Elf64Ehdr) : Nat := ehdr.ePhnum.toNat * ehdr.ePhentsize.toNat

/-- Returns the header, the program header buffer and what is in it. -/
def elfGetFileInfo (fw : Firmware) (file : EfiFile) : ElfM (Elf64Ehdr × UINT64 × Mem) := do
  let ehdr := Elf64Ehdr.decode (← readBuffer fw file 64)
  elfVerifyEhdr ehdr
  setInfo fun info => { info with entry := ehdr.eEntry }
  faultIf (2 ^ 31 ≤ phdrBufferSize ehdr)
  let size : UINTN := BitVec.ofNat 64 (phdrBufferSize ehdr)
  let phdrs ← allocatePool fw size
  onError (setPosition fw file ehdr.ePhoff) fun e => do
    freePool phdrs
    throw (.efi e)
  let table ← onError (readBuffer fw file size) fun e => do
    freePool phdrs
    throw (.efi e)
  let count := elfCountLoadable ehdr table
  setInfo fun info => { info with sectionCount := count }
  let sections ← onError (allocatePool fw (count * 32)) fun e => do
    freePool phdrs
    throw (.efi e)
  setInfo fun info =>
    { info with
      sections := sections
      sectionInfos := List.replicate count.toNat ⟨0, 0, 0, 0⟩ }
  return (ehdr, phdrs, table)

/-- `(phdr->p_memsz + 0x1000 - 1) / 0x1000` -/
def segmentPages (phdr : Elf64Phdr) : UINTN := (phdr.pMemsz + 0x1000 - 1) / 0x1000

def setSection (index : Nat) (phdr : Elf64Phdr) (paddr : UINT64) : ElfM Unit :=
  setInfo fun info =>
    { info with
      sectionInfos := info.sectionInfos.set index
        { phys := paddr, reqVirt := phdr.pVaddr, pageCount := segmentPages phdr,
          flags := phdr.pFlags } }

/-- The body of the loop of `elf_load_file_discont` for a `PT_LOAD` header. -/
def loadDiscontSegment (fw : Firmware) (file : EfiFile) (index : Nat) (phdr : Elf64Phdr) :
    ElfM Unit := do
  let pageCount := segmentPages phdr
  let paddr ← allocatePages fw pageCount
  zeroMem paddr.toNat (pageCount * 0x1000).toNat
  setPosition fw file phdr.pOffset
  readPages fw file phdr.pFilesz paddr
  setSection index phdr paddr

def loadDiscontLoop (fw : Firmware) (file : EfiFile) : Nat → List Elf64Phdr → ElfM Unit
  | _, [] => pure ()
  | index, phdr :: rest =>
    if phdr.pType = ptLoad then do
      loadDiscontSegment fw file index phdr
      loadDiscontLoop fw file (index + 1) rest
    else loadDiscontLoop fw file index rest

/-- The code at the label `err_free_loadInfo`. -/
def errFreeLoadInfo {α : Type} (phdrs : UINT64) (e : EfiError) : ElfM α := do
  elfFreeLoadinfo
  freePool phdrs
  throw (.efi e)

def elfLoadFileDiscont (fw : Firmware) (file : EfiFile) : ElfM Unit := do
  let (ehdr, phdrs, table) ← elfGetFileInfo fw file
  onError (loadDiscontLoop fw file 0 (phdrTable ehdr table)) (errFreeLoadInfo phdrs)

/-- The body of the loop of `elf_load_file_cont` for a `PT_LOAD` header. -/
def loadContSegment (fw : Firmware) (file : EfiFile) (index : Nat) (paddr : UINT64)
    (phdr : Elf64Phdr) : ElfM Unit := do
  setPosition fw file phdr.pOffset
  readPages fw file phdr.pFilesz paddr
  setSection index phdr paddr

/-- `ALIGN_UP(phdr->p_memsz, 0x1000, Elf64_Addr)` -/
def alignedMemsz (phdr : Elf64Phdr) : UINT64 :=
  (phdr.pMemsz + (0x1000#64 - 1#64)) &&& ~~~(0x1000#64 - 1#64)

def loadContLoop (fw : Firmware) (file : EfiFile) : Nat → UINT64 → List Elf64Phdr → ElfM Unit
  | _, _, [] => pure ()
  | index, paddr, phdr :: rest =>
    if phdr.pType = ptLoad then do
      loadContSegment fw file index paddr phdr
      loadContLoop fw file (index + 1) (paddr + alignedMemsz phdr) rest
    else loadContLoop fw file index paddr rest

def elfLoadFileCont (fw : Firmware) (file : EfiFile) : ElfM Unit := do
  let (ehdr, phdrs, table) ← elfGetFileInfo fw file
  let pageCount := elfGetSectionSize ehdr table
  let loadBuffer ← onError (allocatePages fw pageCount) (errFreeLoadInfo phdrs)
  zeroMem loadBuffer.toNat (pageCount * 0x1000).toNat
  onError (loadContLoop fw file 0 loadBuffer (phdrTable ehdr table)) fun e => do
    freePages loadBuffer pageCount
    errFreeLoadInfo phdrs e

def elfLoadFile (fw : Firmware) (file : EfiFile) : ElfLoadtype → ElfM Unit
  | .auto => onError (elfLoadFileCont fw file) fun _ => elfLoadFileDiscont fw file
  | .contig => elfLoadFileCont fw file
  | .discontig => elfLoadFileDiscont fw file
  | .other _ => throw (.efi .invalidParameter)

/-- The body of the loop of `elf_free_sections`.  The array has no more elements
    than `sectionInfos`. -/
def freeSection (index : Nat) : ElfM Unit := do
  let s ← get
  match s.vars.info.sectionInfos[index]? with
  | some section' => freePages section'.phys section'.pageCount
  | none => throw .fault

def elfFreeSections : ElfM Unit := do
  let s ← get
  forUp freeSection 0 s.vars.info.sectionCount.toNat

end MidnightOS.Nyxboot
