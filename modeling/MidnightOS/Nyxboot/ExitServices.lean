import MidnightOS.Nyxboot.MapMemory

/-! # The memory map of the firmware (`types.c`)

The services that the loader calls while it leaves the firmware, and the
functions of `types.c`, which keep the memory map in one variable.  Every call
is recorded with its answer; the variable is overwritten by each `GetMemoryMap`,
also by one that fails.

`Permitted` says which calls the handover protocol allows after which others.
-/

namespace MidnightOS.Nyxboot

open MidnightOS.Lib

def EfiError.bufferTooSmall : EfiError := efierr 5

/-! ## Calls and answers -/

/-- What a successful `GetMemoryMap` delivers. -/
structure MemoryMap where
  bytes : List Byte
  key : UINTN
  descSize : UINTN

/-- The descriptors of the map. -/
def MemoryMap.view (m : MemoryMap) : EfiMemmap where
  descs := fun i => m.bytes.getD i 0
  size := BitVec.ofNat 64 m.bytes.length
  descSize := m.descSize

def MemoryMap.count (m : MemoryMap) : Nat := m.view.count

/-- What a failed `GetMemoryMap` leaves in the variables it was given. -/
structure NoMap where
  error : EfiError
  size : UINTN
  key : UINTN
  descSize : UINTN

inductive BootCall where
  | getMemoryMap (size : UINTN) (buffer : Option UINT64) (answer : Except NoMap MemoryMap)
  | allocatePool (size : UINTN) (answer : Except EfiError UINT64)
  | freePool (buffer : UINT64)
  | exitBootServices (key : UINTN) (answer : Except EfiError Unit)

/-- How the firmware answers, given the calls so far, newest first. -/
structure BootServices where
  getMemoryMap : List BootCall → UINTN → Option UINT64 → Except NoMap MemoryMap
  allocatePool : List BootCall → UINTN → Except EfiError UINT64
  exitBootServices : List BootCall → UINTN → Except EfiError Unit

/-- The size of the pool buffer at `b`, while it is allocated. -/
def liveSize : List BootCall → UINT64 → Option UINTN
  | [], _ => none
  | .allocatePool n (.ok a) :: h, b => if a = b then some n else liveSize h b
  | .freePool a :: h, b => if a = b then none else liveSize h b
  | _ :: h, b => liveSize h b

/-- Boot services are gone. -/
def Exited (h : List BootCall) : Prop := ∃ key, .exitBootServices key (.ok ()) ∈ h

/-- The call `c` is allowed after the calls `h`: boot services are still there, a
    map is written to an allocated buffer of at least the size passed, and the key
    passed is that of a map that was delivered by the call right before. -/
structure Permitted (h : List BootCall) (c : BootCall) : Prop where
  open' : ¬Exited h
  fits : ∀ n b answer, c = .getMemoryMap n (some b) answer →
    ∃ capacity, liveSize h b = some capacity ∧ n.toNat ≤ capacity.toNat
  key : ∀ k answer, c = .exitBootServices k answer →
    ∃ n b m rest, h = .getMemoryMap n (some b) (.ok m) :: rest ∧ k = m.key

/-! ## The machine -/

/-- `efi_memmap_t`, without `descVersion`, which nothing reads. -/
structure EfiMemmapVar where
  descs : UINT64
  size : UINTN
  key : UINTN
  descSize : UINTN

/-- `bi_memmap_t` -/
structure BiMemmap where
  version : UINT32
  bufferSize : UINT64
  descriptorSize : UINT64
  descriptorCount : UINT64
  pDescriptors : UINT64

/-- The calls so far, the variables `memMap` and `memMapBufferSize` of `efi_main`,
    and the map that `bootInfo->pMemMap` points to. -/
structure HandoverVars where
  calls : List BootCall
  memMap : EfiMemmapVar
  memMapBufferSize : UINTN
  bootMap : BiMemmap

abbrev HandoverM := Efi HandoverVars

def setVars (f : HandoverVars → HandoverVars) : HandoverM Unit :=
  modify fun s => { s with vars := f s.vars }

def emitCall (c : BootCall) : HandoverM Unit :=
  setVars fun vars => { vars with calls := c :: vars.calls }

def setMemMap (f : EfiMemmapVar → EfiMemmapVar) : HandoverM Unit :=
  setVars fun vars => { vars with memMap := f vars.memMap }

/-- The status that `x` returns. -/
def status (x : HandoverM Unit) : HandoverM (Option EfiError) := fun s =>
  match x s with
  | .ok _ s' => .ok none s'
  | .error (.efi e) s' => .ok (some e) s'
  | .error .fault s' => .error .fault s'

/-- Return the status. -/
def ofStatus : Option EfiError → HandoverM Unit
  | none => pure ()
  | some e => throw (.efi e)

/-- `GetMemoryMap(&map->size, buffer, &map->key, &map->descSize, &map->descVersion)`. -/
def callGetMemoryMap (bs : BootServices) (buffer : Option UINT64) : HandoverM Unit := do
  let s ← get
  let answer := bs.getMemoryMap s.vars.calls s.vars.memMap.size buffer
  emitCall (.getMemoryMap s.vars.memMap.size buffer answer)
  match answer with
  | .ok m => do
    modify fun s => { s with mem := match buffer with
      | some b => blit s.mem b.toNat m.bytes
      | none => s.mem }
    setMemMap fun map =>
      { map with size := BitVec.ofNat 64 m.bytes.length, key := m.key, descSize := m.descSize }
  | .error r => do
    setMemMap fun map => { map with size := r.size, key := r.key, descSize := r.descSize }
    throw (.efi r.error)

def callAllocatePool (bs : BootServices) (size : UINTN) : HandoverM UINT64 := do
  let s ← get
  let answer := bs.allocatePool s.vars.calls size
  emitCall (.allocatePool size answer)
  match answer with
  | .ok a => pure a
  | .error e => throw (.efi e)

def callFreePool (buffer : UINT64) : HandoverM Unit := emitCall (.freePool buffer)

def callExitBootServices (bs : BootServices) (key : UINTN) : HandoverM Unit := do
  let s ← get
  let answer := bs.exitBootServices s.vars.calls key
  emitCall (.exitBootServices key answer)
  match answer with
  | .ok () => pure ()
  | .error e => throw (.efi e)

/-! ## The source -/

def efiGetMemmap (bs : BootServices) : HandoverM Unit := do
  let res ← status (callGetMemoryMap bs none)
  if res ≠ some .bufferTooSmall then ofStatus res
  else do
    setMemMap fun map => { map with size := map.size + 8192 }
    setVars fun vars => { vars with memMapBufferSize := vars.memMap.size }
    let s ← get
    let descs ← callAllocatePool bs s.vars.memMap.size
    setMemMap fun map => { map with descs := descs }
    onError (callGetMemoryMap bs (some descs)) fun e => do
      callFreePool descs
      throw (.efi e)

def efiGetMemmapNorealloc (bs : BootServices) (bufferSize : UINTN) : HandoverM Unit := do
  setMemMap fun map => { map with size := bufferSize }
  let s ← get
  callGetMemoryMap bs (some s.vars.memMap.descs)

def efiFreeMemmap : HandoverM Unit := do
  let s ← get
  callFreePool s.vars.memMap.descs
  setMemMap fun map => { map with size := 0, key := 0, descSize := 0 }

/-! ## What each operation does -/

section Rules

variable {bs : BootServices} {s : Machine HandoverVars} {E : Stop → Machine HandoverVars → Prop}

def called (c : BootCall) (s : Machine HandoverVars) : Machine HandoverVars :=
  { s with vars := { s.vars with calls := c :: s.vars.calls } }

/-- The machine after a `GetMemoryMap` that delivered `m`. -/
def mapped (buffer : Option UINT64) (m : MemoryMap) (s : Machine HandoverVars) :
    Machine HandoverVars where
  mem := match buffer with
    | some b => blit s.mem b.toNat m.bytes
    | none => s.mem
  trace := s.trace
  vars := { s.vars with
    calls := .getMemoryMap s.vars.memMap.size buffer (.ok m) :: s.vars.calls
    memMap := { s.vars.memMap with
      size := BitVec.ofNat 64 m.bytes.length, key := m.key, descSize := m.descSize } }

/-- The machine after one that failed. -/
def unmapped (buffer : Option UINT64) (r : NoMap) (s : Machine HandoverVars) :
    Machine HandoverVars :=
  { s with vars := { s.vars with
      calls := .getMemoryMap s.vars.memMap.size buffer (.error r) :: s.vars.calls
      memMap := { s.vars.memMap with size := r.size, key := r.key, descSize := r.descSize } } }

theorem wp_setVars {f : HandoverVars → HandoverVars} {Q : PUnit → Machine HandoverVars → Prop} :
    wp (setVars f) Q E s ↔ Q () { s with vars := f s.vars } := Iff.rfl

theorem wp_setMemMap {f : EfiMemmapVar → EfiMemmapVar}
    {Q : PUnit → Machine HandoverVars → Prop} :
    wp (setMemMap f) Q E s ↔ Q () { s with vars := { s.vars with memMap := f s.vars.memMap } } :=
  Iff.rfl

theorem wp_status {x : HandoverM Unit} {Q : Option EfiError → Machine HandoverVars → Prop} :
    wp (status x) Q E s ↔ wp x (fun _ s' => Q none s') (fun stop s' =>
      match stop with
      | .efi e => Q (some e) s'
      | .fault => E .fault s') s := by
  simp only [wp, status]
  cases x s with
  | ok a s' => rfl
  | error stop s' =>
    cases stop with
    | efi e => rfl
    | fault => rfl

theorem wp_callGetMemoryMap {buffer : Option UINT64} {Q : Unit → Machine HandoverVars → Prop} :
    wp (callGetMemoryMap bs buffer) Q E s ↔
      (∀ m, bs.getMemoryMap s.vars.calls s.vars.memMap.size buffer = .ok m →
        Q () (mapped buffer m s)) ∧
      (∀ r, bs.getMemoryMap s.vars.calls s.vars.memMap.size buffer = .error r →
        E (.efi r.error) (unmapped buffer r s)) := by
  simp only [callGetMemoryMap, wp_bind, wp_get]
  cases bs.getMemoryMap s.vars.calls s.vars.memMap.size buffer with
  | ok m => simp [emitCall, wp_setVars, wp_setMemMap, mapped]
  | error r => simp [emitCall, wp_setVars, wp_setMemMap, unmapped]

theorem wp_callAllocatePool {size : UINTN} {Q : UINT64 → Machine HandoverVars → Prop} :
    wp (callAllocatePool bs size) Q E s ↔
      (∀ a, bs.allocatePool s.vars.calls size = .ok a →
        Q a (called (.allocatePool size (.ok a)) s)) ∧
      (∀ e, bs.allocatePool s.vars.calls size = .error e →
        E (.efi e) (called (.allocatePool size (.error e)) s)) := by
  simp only [callAllocatePool, wp_bind, wp_get]
  cases bs.allocatePool s.vars.calls size with
  | ok a => simp [emitCall, wp_setVars, called]
  | error e => simp [emitCall, wp_setVars, called]

theorem wp_callFreePool {buffer : UINT64} {Q : Unit → Machine HandoverVars → Prop} :
    wp (callFreePool buffer) Q E s ↔ Q () (called (.freePool buffer) s) := Iff.rfl

theorem wp_callExitBootServices {key : UINTN} {Q : Unit → Machine HandoverVars → Prop} :
    wp (callExitBootServices bs key) Q E s ↔
      (bs.exitBootServices s.vars.calls key = .ok () →
        Q () (called (.exitBootServices key (.ok ())) s)) ∧
      (∀ e, bs.exitBootServices s.vars.calls key = .error e →
        E (.efi e) (called (.exitBootServices key (.error e)) s)) := by
  simp only [callExitBootServices, wp_bind, wp_get]
  cases bs.exitBootServices s.vars.calls key with
  | ok a => simp [emitCall, wp_setVars, called]
  | error e => simp [emitCall, wp_setVars, called]

end Rules

end MidnightOS.Nyxboot
