import MidnightOS.Nyxboot.BootImage
import MidnightOS.Nyxboot.BootInfo
import MidnightOS.Nyxboot.BootPartition
import MidnightOS.Nyxboot.ConfigCleanup
import MidnightOS.Nyxboot.Handover

/-! # The boot loader as a whole (`main.c`)

`efiMain` runs the parts of the loader one after another, each on its own variables.  All
that is obtained from the pool is recorded in the one trace, also by the calls with which
the firmware is left: `resume` adds these.
-/

namespace MidnightOS.Nyxboot

open MidnightOS.Lib

/-! ## Firmware and variables -/

/-- The whole firmware.  `services` and `openFile` may look at what happened so far; the path
of a file is in memory. -/
structure Platform where
  fw : Firmware
  services : List Event → BootServices
  config : ConfigFiles
  partition : FsServices
  openVolume : (filesystem : UINT64) → Except EfiError UINT64
  openFile : Mem → (path : UINT64) → Except EfiError (UINT64 × EfiFile)

/-- Where the local variables are that pointers are passed to. -/
structure Locals where
  bootConfig : UINT64
  bootPart : UINT64
  bootPartFs : UINT64
  bootConfig_ne : bootConfig ≠ 0
  bootPart_ne : bootPart ≠ 0
  bootPartFs_ne : bootPartFs ≠ 0

/-- The variables of the parts, and the handles that `load_boot_bin` opened and closed,
newest first. -/
structure MainVars where
  config : ConfigVars
  partition : FsVars
  elf : ElfVars
  handover : HandoverVars
  handles : List HandleEvent

abbrev MainM := Efi MainVars

/-- The call as an event of the trace, if it is about the pool. -/
def BootCall.event : BootCall → Option Event
  | .allocatePool n answer => some (.allocatePool n answer)
  | .freePool b => some (.freePool b)
  | .getMemoryMap _ _ _ => none
  | .exitBootServices _ _ => none

def poolEvents (calls : List BootCall) : List Event := calls.filterMap BootCall.event

/-- The calls since `earlier`. -/
def callsSince (earlier calls : List BootCall) : List BootCall :=
  calls.take (calls.length - earlier.length)

/-- The machine of the whole after a part that left the firmware. -/
def Machine.resume (s : Machine MainVars) (t : Machine HandoverVars) : Machine MainVars where
  mem := t.mem
  trace := poolEvents (callsSince s.vars.handover.calls t.vars.calls) ++ t.trace
  vars := { s.vars with handover := t.vars }

/-- The bytes of a GUID in memory. -/
def EfiGuid.bytes (guid : EfiGuid) : List Byte :=
  leBytes 4 guid.data1 ++ leBytes 2 guid.data2 ++ leBytes 2 guid.data3 ++ leBytes 8 guid.data4

section Parts

variable {α : Type}

def inConfig (x : ConfigM α) : MainM α :=
  focus (fun s => ⟨s.mem, s.trace, s.vars.config⟩)
    (fun t s => ⟨t.mem, t.trace, { s.vars with config := t.vars }⟩) x

/-- The search finds `*bootConfig` in memory, where it only reads. -/
def inPartition (l : Locals) (x : FsM α) : MainM α :=
  focus (fun s => ⟨blit s.mem l.bootConfig.toNat s.vars.config.cfg.bootPartUUID.bytes, s.trace,
      s.vars.partition⟩)
    (fun t s => ⟨s.mem, t.trace, { s.vars with partition := t.vars }⟩) x

def inElf (x : ElfM α) : MainM α :=
  focus (fun s => ⟨s.mem, s.trace, s.vars.elf⟩)
    (fun t s => ⟨t.mem, t.trace, { s.vars with elf := t.vars }⟩) x

def inHandover (p : Platform) (x : BootServices → HandoverM α) : MainM α := do
  let s ← get
  focus (fun s => ⟨s.mem, s.trace, s.vars.handover⟩) (fun t s => s.resume t) (x (p.services s.trace))

end Parts

/-! ## The source -/

def recordHandle (ev : HandleEvent) : MainM Unit :=
  modify fun s => { s with vars := { s.vars with handles := ev :: s.vars.handles } }

/-- `bootPartFs->OpenVolume(bootPartFs, &bootRoot)` -/
def callOpenVolume (p : Platform) : MainM UINT64 := do
  let s ← get
  match p.openVolume s.vars.partition.filesystem with
  | .ok bootRoot => do
    recordHandle (.opened bootRoot)
    return bootRoot
  | .error e => throw (.efi e)

/-- `bootRoot->Open(bootRoot, &bootBinary, bootConfig->bootBinPath, EFI_FILE_MODE_READ, 0)`.  A
null pointer is not followed, be it the root, the path or the file. -/
def callOpen (p : Platform) (bootRoot : UINT64) : MainM (UINT64 × EfiFile) := do
  let s ← get
  let path := s.vars.config.cfg.bootBinPath
  faultIf (bootRoot = 0 ∨ path = 0)
  match p.openFile s.mem path with
  | .ok bootBinary => do
    faultIf (bootBinary.1 = 0)
    recordHandle (.opened bootBinary.1)
    modify fun s => { s with vars := { s.vars with elf := { s.vars.elf with position := 0 } } }
    return bootBinary
  | .error e => throw (.efi e)

/-- `load_boot_bin` after the partition was found. -/
def loadFromPartition (p : Platform) : MainM Unit := do
  let bootRoot ← callOpenVolume p
  let bootBinary ← onError (callOpen p bootRoot) fun e => do
    recordHandle (.closed bootRoot)
    throw (.efi e)
  onError (inElf (elfLoadFile p.fw bootBinary.2 .discontig)) fun e => do
    recordHandle (.closed bootBinary.1)
    recordHandle (.closed bootRoot)
    throw (.efi e)
  recordHandle (.closed bootBinary.1)
  recordHandle (.closed bootRoot)

def loadBootBin (p : Platform) (imageHandle : UINT64) (l : Locals) : MainM Unit := do
  inConfig (parseConfig p.fw p.config imageHandle l.bootConfig)
  inPartition l (findFilesystemForGuid p.partition l.bootConfig l.bootPart l.bootPartFs)
  loadFromPartition p

/-- `map_memory` of the map of the loader, which is read while the tables are written. -/
def mapMemoryHere (p : Platform) (pml4 : UINT64) : MainM Unit := do
  let s ← get
  let memMap := s.vars.handover.memMap
  faultIf (memMap.descSize = 0)
  forUp (fun i => do
    let s ← get
    mapDescriptor p.fw pml4
      (.decode s.mem (memMap.descs.toNat + i * memMap.descSize.toNat))) 0 (memMap.size / memMap.descSize).toNat
  forUp (mapSection p.fw pml4 s.vars.elf.info) 0 s.vars.elf.info.sectionCount.toNat

def freeConfig : MainM Unit := do
  let s ← get
  freePool s.vars.config.cfg.bootBinPath

section Labels

variable {α : Type}

/-- The code from the label `err_free_loadedBin` on. -/
def errFreeLoadedBin (e : EfiError) : MainM α := do
  inElf unload
  freeConfig
  throw (.efi e)

/-- The code from the label `err_free_map` on. -/
def errFreeMap (p : Platform) (e : EfiError) : MainM α := do
  inHandover p fun _ => efiFreeMemmap
  errFreeLoadedBin e

/-- The code from the label `err_free_pageTables` on. -/
def errFreePageTables (p : Platform) (pml4 : UINT64) (e : EfiError) : MainM α := do
  memFreeTables pml4
  freePages pml4 1
  errFreeMap p e

end Labels

/-- The attempts to leave the firmware, with the status of the last one. -/
def exitServices (bs : BootServices) : HandoverM (Option EfiError) := do
  let res ← exitAttempts bs 5 none
  if res.isSome then status (exitReallocated bs) else pure none

/-- How `efi_main` ends where it does not return: the jump, with `cr3`, `rdi` and the address,
or the loop at `err_halt`. -/
inductive MainEnding where
  | jump (cr3 rdi entry : UINT64)
  | halt
deriving DecidableEq

/-- The end of `efi_main`, from the loop of attempts on. -/
def leaveFirmware (p : Platform) (pml4Addr bootInfo entry : UINT64) : MainM MainEnding := do
  let res ← inHandover p exitServices
  if res.isSome then pure .halt
  else do
    let memmap ← loadWord (bootInfo.toNat + 32)
    let res ← inHandover p fun _ => status (Build.biUpdateMemmap memmap.toNat)
    if res.isSome then pure .halt else pure (.jump pml4Addr bootInfo entry)

/-- `efi_main` after `load_boot_bin`. -/
def bootLoaded (p : Platform) : MainM MainEnding := do
  onError (inHandover p efiGetMemmap) errFreeLoadedBin
  let pml4 ← onError (newPml4 p.fw) (errFreeMap p)
  onError (mapMemoryHere p pml4) (errFreePageTables p pml4)
  let s ← get
  let bootInfo ← onError (Build.biBuildBootinfo p.fw s.vars.elf.info) (errFreePageTables p pml4)
  leaveFirmware p pml4 bootInfo s.vars.elf.info.entry

def efiMain (p : Platform) (imageHandle : UINT64) (l : Locals) : MainM MainEnding := do
  loadBootBin p imageHandle l
  bootLoaded p

/-! ## Rules for the parts -/

theorem callsSince_append (evs calls : List BootCall) : callsSince calls (evs ++ calls) = evs := by
  rw [callsSince, List.length_append, Nat.add_sub_cancel, List.take_left]

section Rules

variable {α : Type} {p : Platform} {l : Locals} {Q : α → Machine MainVars → Prop}
  {E : Stop → Machine MainVars → Prop} {s : Machine MainVars}

theorem wp_inConfig {x : ConfigM α} : wp (inConfig x) Q E s ↔
    wp x (fun a t => Q a ⟨t.mem, t.trace, { s.vars with config := t.vars }⟩)
      (fun e t => E e ⟨t.mem, t.trace, { s.vars with config := t.vars }⟩)
      ⟨s.mem, s.trace, s.vars.config⟩ := wp_focus

theorem wp_inPartition {x : FsM α} : wp (inPartition l x) Q E s ↔
    wp x (fun a t => Q a ⟨s.mem, t.trace, { s.vars with partition := t.vars }⟩)
      (fun e t => E e ⟨s.mem, t.trace, { s.vars with partition := t.vars }⟩)
      ⟨blit s.mem l.bootConfig.toNat s.vars.config.cfg.bootPartUUID.bytes, s.trace,
        s.vars.partition⟩ := wp_focus

theorem wp_inElf {x : ElfM α} : wp (inElf x) Q E s ↔
    wp x (fun a t => Q a ⟨t.mem, t.trace, { s.vars with elf := t.vars }⟩)
      (fun e t => E e ⟨t.mem, t.trace, { s.vars with elf := t.vars }⟩)
      ⟨s.mem, s.trace, s.vars.elf⟩ := wp_focus

theorem wp_inHandover {x : BootServices → HandoverM α} : wp (inHandover p x) Q E s ↔
    wp (x (p.services s.trace)) (fun a t => Q a (s.resume t)) (fun e t => E e (s.resume t))
      ⟨s.mem, s.trace, s.vars.handover⟩ := by
  simp only [inHandover, wp_bind, wp_get, wp_focus]

theorem wp_recordHandle {ev : HandleEvent} {Q : PUnit → Machine MainVars → Prop} :
    wp (recordHandle ev) Q E s ↔
      Q () { s with vars := { s.vars with handles := ev :: s.vars.handles } } := Iff.rfl

/-- What was called is what is new. -/
theorem Machine.resume_trace {t : Machine HandoverVars} {evs : List BootCall}
    (calls : t.vars.calls = evs ++ s.vars.handover.calls) :
    (s.resume t).trace = poolEvents evs ++ t.trace := by
  rw [Machine.resume, calls, callsSince_append]

@[simp] theorem Machine.resume_mem {t : Machine HandoverVars} : (s.resume t).mem = t.mem := rfl

@[simp] theorem Machine.resume_vars {t : Machine HandoverVars} :
    (s.resume t).vars = { s.vars with handover := t.vars } := rfl

end Rules

end MidnightOS.Nyxboot
