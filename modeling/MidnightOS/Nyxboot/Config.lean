import MidnightOS.Nyxboot.Crc32

/-! # The boot configuration (`cfgparse.c`)

`parse_config` reads `BOOT\BOOT.CFG` into a pool buffer and `read_config` takes the
two options from it.  The variables of a run are `*cfg` and a log of the file
handles that were opened and closed.

Reads go wherever the pointers of the source point to, inside the buffer or not;
the trace records them.  The pointer that `dataOffset` gives wraps at `2 ^ 64`, as do
the addresses of a read.
-/

namespace MidnightOS.Nyxboot

open MidnightOS.Lib

/-! ## Data -/

/-- `EFI_GUID`, its eight last bytes as one word. -/
structure EfiGuid where
  data1 : UINT32
  data2 : UINT16
  data3 : UINT16
  data4 : UINT64
deriving DecidableEq

def EfiGuid.decode (m : Mem) (a : Nat) : EfiGuid where
  data1 := loadLE m 4 a
  data2 := loadLE m 2 (a + 4)
  data3 := loadLE m 2 (a + 6)
  data4 := loadLE m 8 (a + 8)

structure Configinfo where
  bootPartUUID : EfiGuid
  bootBinPath : UINT64

/-- `MDBC_Magic`, the letters `MBCF`. -/
def mdbcMagic : List UINT8 := [0x4D, 0x42, 0x43, 0x46]

/-- `mdbc_header_t`, without its padding. -/
structure MdbcHeader where
  magic : List UINT8
  crc32 : UINT32
  version : UINT8
  dataOffset : UINT64

def MdbcHeader.decode (m : Mem) (a : Nat) : MdbcHeader where
  magic := slice m a 4
  crc32 := loadLE m 4 (a + 4)
  version := m (a + 8)
  dataOffset := loadLE m 8 (a + 16)

/-- `"BOOT_DISK"` -/
def bootDisk : List UINT8 := [0x42, 0x4F, 0x4F, 0x54, 0x5F, 0x44, 0x49, 0x53, 0x4B]

/-- `"BOOT_PATH"` -/
def bootPath : List UINT8 := [0x42, 0x4F, 0x4F, 0x54, 0x5F, 0x50, 0x41, 0x54, 0x48]

inductive HandleEvent where
  | opened (file : UINT64)
  | closed (file : UINT64)
deriving DecidableEq

/-- `*cfg`, and the file handles opened and closed, newest first. -/
structure ConfigVars where
  cfg : Configinfo
  handles : List HandleEvent

abbrev ConfigM := Efi ConfigVars

/-! ## Reading memory -/

/-- Memory, continued past the end of the address space from its start. -/
def wrapped (m : Mem) : Mem := fun x => m (x % 2 ^ 64)

def loadBytes (a n : Nat) : ConfigM (List UINT8) := do
  modify (·.emit (.load a n))
  let s ← get
  return slice (wrapped s.mem) a n

def loadUINT8 (a : Nat) : ConfigM UINT8 := do
  modify (·.emit (.load a 1))
  let s ← get
  return s.mem a

def loadUINT16 (a : Nat) : ConfigM UINT16 := do
  modify (·.emit (.load a 2))
  let s ← get
  return loadLE s.mem 2 a

/-- How many bytes from `a` on are not zero, if one of the next `n` is. -/
def lengthFrom (m : Mem) : (a n : Nat) → Option Nat
  | _, 0 => none
  | a, n + 1 => if m a = 0 then some 0 else (lengthFrom m (a + 1) n).map (· + 1)

/-- `strlena`.  A scan that finds no terminator in the address space does not return. -/
def strlena (s1 : Nat) : ConfigM Nat := do
  let s ← get
  match lengthFrom s.mem s1 (2 ^ 64 - s1) with
  | some len =>
      modify (·.emit (.load s1 (len + 1)))
      return len
  | none =>
      modify (·.emit (.load s1 (2 ^ 64 - s1)))
      throw .fault

/-- `strcmpa`, with the characters of `s2` before its terminator. -/
def strcmpa (s1 : Nat) : (s2 : List UINT8) → ConfigM UINTN
  | [] => do
      let c ← loadUINT8 s1
      return c.setWidth 64
  | d :: s2 => do
      let c ← loadUINT8 s1
      if c = 0 ∨ c ≠ d then return c.setWidth 64 - d.setWidth 64
      else strcmpa (s1 + 1) s2

/-- `CopyMem` from memory to memory, neither pointer null. -/
def copyMem (destination source length : Nat) : ConfigM Unit := do
  let bytes ← loadBytes source length
  modify fun s => { s.emit (.store destination length) with mem := blit s.mem destination bytes }

/-! ## `read_config` -/

def verifyHeader (header : MdbcHeader) (cfgBuffer : UINT64) (cfgSize : UINTN) : ConfigM Unit := do
  returnIf (header.magic ≠ mdbcMagic) .unsupported
  returnIf (header.version ≠ 1) .incompatibleVersion
  let data := cfgBuffer + header.dataOffset
  -- an offset past the end makes this a length close to `2 ^ 64`
  let length := cfgSize - header.dataOffset
  let bytes ← loadBytes data.toNat length.toNat
  returnIf (crc32 bytes 0xFFFFFFFF ≠ header.crc32) .crcError

/-- `size`, `data` and `ptr` after the data of a record were extracted. -/
structure Extracted where
  size : UINT16
  data : Nat
  ptr : Nat

/-- The first half of the loop: `// extract data`. -/
def extractData (ptr stop : Nat) : ConfigM Extracted := do
  let nameLen ← strlena ptr
  let ptr := ptr + nameLen + 1
  returnIf (stop < ptr + 2) .compromisedData
  let size ← loadUINT16 ptr
  let ptr := ptr + 2
  returnIf (stop < ptr + size.toNat + 2) .compromisedData
  let data := ptr
  let ptr := ptr + size.toNat
  let first ← loadUINT8 ptr
  returnIf (first ≠ 0x00) .compromisedData
  let second ← loadUINT8 (ptr + 1)
  returnIf (second ≠ 0x0A) .compromisedData
  return ⟨size, data, ptr + 2⟩

def setBootDisk (data : Nat) : ConfigM Unit := do
  modify (·.emit (.load data 16))
  modify fun s =>
    { s with vars := { s.vars with cfg := { s.vars.cfg with
        bootPartUUID := EfiGuid.decode s.mem data } } }

def setBootPath (fw : Firmware) (data : Nat) (size : UINT16) : ConfigM Unit := do
  let buffer ← allocatePool fw (size.setWidth 64)
  modify fun s =>
    { s with vars := { s.vars with cfg := { s.vars.cfg with bootBinPath := buffer } } }
  copyMem buffer.toNat data size.toNat

/-- The second half of the loop: `// parse data`. -/
def parseData (fw : Firmware) (name : Nat) (x : Extracted) : ConfigM Unit := do
  let disk ← strcmpa name bootDisk
  if disk = 0 then setBootDisk x.data
  else do
    let path ← strcmpa name bootPath
    if path = 0 then setBootPath fw x.data x.size
    else throw (.efi .invalidParameter)

/-- `while (ptr < end)`.  Each round moves `ptr`, so `end - ptr` rounds are enough. -/
def readRecords (fw : Firmware) (stop : Nat) : (ptr fuel : Nat) → ConfigM Unit
  | ptr, 0 => faultIf (ptr < stop)
  | ptr, fuel + 1 =>
      if ptr < stop then do
        let x ← extractData ptr stop
        parseData fw ptr x
        readRecords fw stop x.ptr fuel
      else pure ()

def readConfig (fw : Firmware) (cfgBuffer : UINT64) (cfgSize : UINTN) : ConfigM Unit := do
  modify (·.emit (.load cfgBuffer.toNat 24))
  let s ← get
  let header := MdbcHeader.decode s.mem cfgBuffer.toNat
  verifyHeader header cfgBuffer cfgSize
  let ptr := (cfgBuffer + header.dataOffset).toNat
  let stop := (cfgBuffer + cfgSize).toNat
  readRecords fw stop ptr (stop - ptr)

/-! ## `parse_config` -/

/-- How the firmware answers the calls that are made once.  A null pointer is `0`.
    `getInfo` answers with the `FileSize`, `read` with the bytes it delivers. -/
structure ConfigFiles where
  loadedImage : Except EfiError UINT64
  fileSystem : Except EfiError UINT64
  openVolume : Except EfiError UINT64
  openFile : Except EfiError UINT64
  getInfo : Except EfiError UINTN
  read : (size : UINTN) → Except EfiError { bytes : List Byte // bytes.length ≤ size.toNat }

def answer {α : Type} (res : Except EfiError α) : ConfigM α :=
  match res with
  | .ok a => pure a
  | .error e => throw (.efi e)

def logHandle (ev : HandleEvent) : ConfigM Unit :=
  modify fun s => { s with vars := { s.vars with handles := ev :: s.vars.handles } }

def openHandle (res : Except EfiError UINT64) : ConfigM UINT64 := do
  let file ← answer res
  if file = 0 then return 0
  else do
    logHandle (.opened file)
    return file

def closeHandle (file : UINT64) : ConfigM Unit := do
  faultIf (file = 0)
  logHandle (.closed file)

/-- `open_config_file`, with `*cfg` for its result: it stays null where `res` is returned
    without being an error. -/
def openConfigFile (files : ConfigFiles) : ConfigM UINT64 := do
  let imageProtocol ← answer files.loadedImage
  if imageProtocol = 0 then return 0
  else do
    let espFS ← answer files.fileSystem
    if espFS = 0 then return 0
    else do
      let root ← openHandle files.openVolume
      if root = 0 then return 0
      else do
        let cfg ← onError (openHandle files.openFile) fun e => do
          closeHandle root
          throw (.efi e)
        closeHandle root
        return cfg

/-- `SIZE_OF_EFI_FILE_INFO + 200` -/
def fileInfoBufferSize : UINTN := 280

/-- `get_file_size`, whose `fileSize` is never null here. -/
def getFileSize (fw : Firmware) (files : ConfigFiles) (file : UINT64) : ConfigM UINTN := do
  returnIf (file = 0) .invalidParameter
  let fileInfo ← onError (allocatePool fw fileInfoBufferSize) fun e => do
    closeHandle file
    throw (.efi e)
  let fileSize ← onError (answer files.getInfo) fun e => do
    freePool fileInfo
    closeHandle file
    throw (.efi e)
  freePool fileInfo
  return fileSize

/-- `cfgFile->Read(cfgFile, &fileSize, cfgBuffer)`, with the new `fileSize`. -/
def readFile (files : ConfigFiles) (cfgBuffer : UINT64) (fileSize : UINTN) : ConfigM UINTN := do
  let bytes ← answer (files.read fileSize)
  modify fun s =>
    { s.emit (.read fileSize (some cfgBuffer) (.ok ())) with
      mem := blit s.mem cfgBuffer.toNat bytes.val }
  return BitVec.ofNat 64 bytes.val.length

def parseConfig (fw : Firmware) (files : ConfigFiles) (imageHandle cfg : UINT64) :
    ConfigM Unit := do
  returnIf (imageHandle = 0 ∨ cfg = 0) .invalidParameter
  let cfgFile ← openConfigFile files
  let fileSize ← onError (getFileSize fw files cfgFile) fun e => do
    closeHandle cfgFile
    throw (.efi e)
  if fileSize = 0 then closeHandle cfgFile
  else do
    let cfgBuffer ← onError (allocatePool fw fileSize) fun e => do
      closeHandle cfgFile
      throw (.efi e)
    zeroMem cfgBuffer.toNat fileSize.toNat
    let fileSize ← onError (readFile files cfgBuffer fileSize) fun e => do
      freePool cfgBuffer
      closeHandle cfgFile
      throw (.efi e)
    onError (readConfig fw cfgBuffer fileSize) fun e => do
      freePool cfgBuffer
      closeHandle cfgFile
      throw (.efi e)
    closeHandle cfgFile
    freePool cfgBuffer

end MidnightOS.Nyxboot
