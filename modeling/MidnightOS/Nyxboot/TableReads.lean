import MidnightOS.Nyxboot.CutShort

/-! # Reads of the program header table

Four loops read fields of the records in the program header buffer, a record every
`e_phentsize` bytes.  Here they are written out with each read as an event of its own, and
`Elf` is what is left of them when these events are erased.
-/

namespace MidnightOS.Nyxboot

open MidnightOS.Lib

/-! ## The loops with their reads -/

/-- `e_phnum * e_phentsize`, the product of two `int`s made a `UINTN`.  Where the product
    is no `int` it wraps here, and the conversion extends its sign. -/
def phdrBufferBytes (ehdr : Elf64Ehdr) : UINTN :=
  (ehdr.ePhnum.setWidth 32 * ehdr.ePhentsize.setWidth 32).signExtend 64

/-- Read the `n` bytes at `a` of the table in the buffer `phdrs`. -/
def readField (phdrs : UINT64) (table : Mem) (n a : Nat) : ElfM (BitVec (8 * n)) := do
  modify (·.emit (.load (phdrs.toNat + a) n))
  return loadLE table n a

theorem readField_bind_apply {phdrs : UINT64} {table : Mem} {n a : Nat} {β : Type}
    (f : BitVec (8 * n) → ElfM β) (s : Machine ElfVars) :
    (readField phdrs table n a >>= f) s =
      f (loadLE table n a) (s.emit (.load (phdrs.toNat + a) n)) := rfl

section Source

variable (phdrs : UINT64) (table : Mem) (entsize : Nat)

/-- The loop of `elf_count_loadable`, for the records with these indices. -/
def countLoadableReads : List Nat → UINTN → ElfM UINTN
  | [], count => return count
  | i :: rest, count => do
    let type ← readField phdrs table 4 (entsize * i)
    if type = ptLoad then
      countLoadableReads rest (count + 1)
    else
      countLoadableReads rest count

/-- The loop of `elf_get_section_size`. -/
def sectionSizeReads : List Nat → UINTN → ElfM UINTN
  | [], pageCount => return pageCount
  | i :: rest, pageCount => do
    let type ← readField phdrs table 4 (entsize * i)
    if type = ptLoad then
      let memsz ← readField phdrs table 8 (entsize * i + 40)
      sectionSizeReads rest (pageCount + ((memsz + (0x1000#64 - 1#64)) &&&
        ((~~~(0x1000#64 - 1#64)) / 0x1000#64)))
    else
      sectionSizeReads rest pageCount

variable (fw : Firmware) (file : EfiFile)

/-- The loop of `elf_load_file_discont`. -/
def loadDiscontReads : Nat → List Nat → ElfM Unit
  | _, [] => pure ()
  | index, i :: rest => do
    let type ← readField phdrs table 4 (entsize * i)
    if type = ptLoad then
      let memsz ← readField phdrs table 8 (entsize * i + 40)
      let pageCount := (memsz + 0x1000 - 1) / 0x1000
      let paddr ← allocatePages fw pageCount
      zeroMem paddr.toNat (pageCount * 0x1000).toNat
      let offset ← readField phdrs table 8 (entsize * i + 8)
      setPosition fw file offset
      let filesz ← readField phdrs table 8 (entsize * i + 32)
      readPages fw file filesz paddr
      let vaddr ← readField phdrs table 8 (entsize * i + 16)
      let flags ← readField phdrs table 4 (entsize * i + 4)
      setInfo fun info =>
        { info with
          sectionInfos := info.sectionInfos.set index
            { phys := paddr, reqVirt := vaddr, pageCount := pageCount, flags := flags } }
      loadDiscontReads (index + 1) rest
    else
      loadDiscontReads index rest

/-- The loop of `elf_load_file_cont`. -/
def loadContReads : Nat → UINT64 → List Nat → ElfM Unit
  | _, _, [] => pure ()
  | index, paddr, i :: rest => do
    let type ← readField phdrs table 4 (entsize * i)
    if type = ptLoad then
      let offset ← readField phdrs table 8 (entsize * i + 8)
      setPosition fw file offset
      let filesz ← readField phdrs table 8 (entsize * i + 32)
      readPages fw file filesz paddr
      let memsz ← readField phdrs table 8 (entsize * i + 40)
      let vaddr ← readField phdrs table 8 (entsize * i + 16)
      let flags ← readField phdrs table 4 (entsize * i + 4)
      setInfo fun info =>
        { info with
          sectionInfos := info.sectionInfos.set index
            { phys := paddr, reqVirt := vaddr, pageCount := (memsz + 0x1000 - 1) / 0x1000,
              flags := flags } }
      let memsz ← readField phdrs table 8 (entsize * i + 40)
      loadContReads (index + 1)
        (paddr + ((memsz + (0x1000#64 - 1#64)) &&& ~~~(0x1000#64 - 1#64))) rest
    else
      loadContReads index paddr rest

end Source

/-! ## Erasing the reads -/

def Event.isLoad : Event → Bool
  | .load _ _ => true
  | _ => false

def Machine.withoutLoads {σ : Type} (s : Machine σ) : Machine σ :=
  { s with trace := s.trace.filter fun ev => !ev.isLoad }

/-- A firmware that does not see what the loader reads from memory. -/
def Firmware.unaware (fw : Firmware) : Firmware where
  allocatePages h := fw.allocatePages (h.filter fun ev => !ev.isLoad)
  allocatePool h := fw.allocatePool (h.filter fun ev => !ev.isLoad)
  setPosition h := fw.setPosition (h.filter fun ev => !ev.isLoad)
  read h := fw.read (h.filter fun ev => !ev.isLoad)
  indeterminate h := fw.indeterminate (h.filter fun ev => !ev.isLoad)

/-- With its loads erased, `x` is `y`. -/
def Erases {α : Type} (x y : ElfM α) : Prop :=
  ∀ s, y s.withoutLoads =
    match x s with
    | .ok a t => .ok a t.withoutLoads
    | .error e t => .error e t.withoutLoads

section Erases

variable {α β : Type} {x y : ElfM α} {f g : α → ElfM β}

theorem Erases.pure (a : α) : Erases (pure a) (pure a) := fun _ => rfl

theorem Erases.bind (h : Erases x y) (hf : ∀ a, Erases (f a) (g a)) :
    Erases (x >>= f) (y >>= g) := by
  intro s
  have first := h s
  rw [bind_apply, bind_apply, first]
  cases x s with
  | ok a t => exact hf a t
  | error e t => rfl

/-- Reading a field is no step of `y`. -/
theorem Erases.readField {phdrs : UINT64} {table : Mem} {n a : Nat} {f : BitVec (8 * n) → ElfM β}
    {z : ElfM β} (h : Erases (f (loadLE table n a)) z) :
    Erases (readField phdrs table n a >>= f) z := by
  intro s
  rw [readField_bind_apply]
  exact h (s.emit (.load (phdrs.toNat + a) n))

theorem Erases.call {ev : Except EfiError α → Event} (quiet : ∀ res, (ev res).isLoad = false)
    (res : Except EfiError α) : Erases (call ev res) (call ev res) := by
  intro s
  cases res with
  | ok a => simp [Nyxboot.call, Machine.withoutLoads, Machine.emit, quiet]
  | error e => simp [Nyxboot.call, Machine.withoutLoads, Machine.emit, quiet]

theorem Erases.update {f : Machine ElfVars → Machine ElfVars}
    (h : ∀ s, f s.withoutLoads = (f s).withoutLoads) : Erases (modify f) (modify f) := by
  intro s
  exact congrArg (EStateM.Result.ok PUnit.unit) (h s)

variable (fw : Firmware) (file : EfiFile)

theorem Erases.allocatePages (n : UINTN) :
    Erases (allocatePages fw.unaware n) (allocatePages fw n) := by
  intro s
  exact Erases.call (fun _ => rfl) _ s

theorem Erases.zeroMem (buffer size : Nat) :
    Erases (zeroMem buffer size) (zeroMem buffer size) :=
  Erases.update fun _ => rfl

theorem Erases.setPosition (position : UINT64) :
    Erases (setPosition fw.unaware file position) (setPosition fw file position) := by
  intro s
  have asked : Erases (Nyxboot.call (.setPosition position) _) _ :=
    .call (fun _ => rfl) (fw.setPosition s.withoutLoads.trace position)
  have moved := Erases.update
    (f := fun t => { t with vars := { t.vars with position := file.seek position } }) fun _ => rfl
  exact asked.bind (fun _ => moved) s

theorem Erases.readPages (size : UINTN) (buffer : UINT64) :
    Erases (readPages fw.unaware file size buffer) (readPages fw file size buffer) := by
  intro s
  have asked : Erases (Nyxboot.call (.read size (some buffer)) _) _ :=
    .call (fun _ => rfl) (fw.read s.withoutLoads.trace s.vars.position size)
  have stored := Erases.update
    (f := fun t => { t with
      mem := blit t.mem buffer.toNat (file.delivered s.vars.position size)
      vars := { t.vars with
        position := t.vars.position + (file.delivered s.vars.position size).length } })
    fun _ => rfl
  exact asked.bind (fun _ => stored) s

theorem Erases.setInfo (f : ElfLoadinfo → ElfLoadinfo) : Erases (setInfo f) (setInfo f) :=
  Erases.update fun _ => rfl

end Erases

/-- The records with these indices. -/
def recordsAt (table : Mem) (entsize : Nat) (indices : List Nat) : List Elf64Phdr :=
  indices.map fun i => Elf64Phdr.decode table (entsize * i)

theorem decode_pType (table : Mem) (off : Nat) :
    (Elf64Phdr.decode table off).pType = loadLE table 4 off := rfl

section Loops

variable {phdrs : UINT64} {table : Mem} {entsize : Nat} (fw : Firmware) (file : EfiFile)

theorem countLoadableReads_erases (indices : List Nat) (count : UINTN) :
    Erases (countLoadableReads phdrs table entsize indices count)
      (pure ((recordsAt table entsize indices).foldl
        (fun count phdr => if phdr.pType = ptLoad then count + 1 else count) count)) := by
  induction indices generalizing count with
  | nil => exact Erases.pure count
  | cons i rest ih =>
    rw [countLoadableReads, recordsAt, List.map_cons, List.foldl_cons]
    apply Erases.readField
    by_cases load : loadLE table 4 (entsize * i) = ptLoad
    · rw [if_pos load, if_pos ((decode_pType table (entsize * i)).trans load)]
      exact ih (count + 1)
    · rw [if_neg load, if_neg (mt (decode_pType table (entsize * i)).symm.trans load)]
      exact ih count

theorem sectionSizeReads_erases (indices : List Nat) (pageCount : UINTN) :
    Erases (sectionSizeReads phdrs table entsize indices pageCount)
      (pure ((recordsAt table entsize indices).foldl
        (fun pageCount phdr =>
          if phdr.pType = ptLoad then
            pageCount + ((phdr.pMemsz + (0x1000#64 - 1#64)) &&&
              ((~~~(0x1000#64 - 1#64)) / 0x1000#64))
          else pageCount) pageCount)) := by
  induction indices generalizing pageCount with
  | nil => exact Erases.pure pageCount
  | cons i rest ih =>
    rw [sectionSizeReads, recordsAt, List.map_cons, List.foldl_cons]
    apply Erases.readField
    by_cases load : loadLE table 4 (entsize * i) = ptLoad
    · rw [if_pos load, if_pos ((decode_pType table (entsize * i)).trans load)]
      apply Erases.readField
      exact ih _
    · rw [if_neg load, if_neg (mt (decode_pType table (entsize * i)).symm.trans load)]
      exact ih pageCount

theorem loadDiscontReads_erases (index : Nat) (indices : List Nat) :
    Erases (loadDiscontReads phdrs table entsize fw.unaware file index indices)
      (loadDiscontLoop fw file index (recordsAt table entsize indices)) := by
  induction indices generalizing index with
  | nil => exact Erases.pure ()
  | cons i rest ih =>
    -- field by field in the order of the source, `p_type` first
    rw [loadDiscontReads, recordsAt, List.map_cons, loadDiscontLoop]
    apply Erases.readField
    by_cases load : loadLE table 4 (entsize * i) = ptLoad
    · rw [if_pos load, if_pos ((decode_pType table (entsize * i)).trans load)]
      simp only [loadDiscontSegment, setSection, segmentPages, bind_assoc]
      apply Erases.readField
      refine (Erases.allocatePages fw _).bind fun paddr => ?_
      refine (Erases.zeroMem _ _).bind fun _ => ?_
      apply Erases.readField
      refine (Erases.setPosition fw file _).bind fun _ => ?_
      apply Erases.readField
      refine (Erases.readPages fw file _ _).bind fun _ => ?_
      apply Erases.readField
      apply Erases.readField
      exact (Erases.setInfo _).bind fun _ => ih (index + 1)
    · rw [if_neg load, if_neg (mt (decode_pType table (entsize * i)).symm.trans load)]
      exact ih index

theorem loadContReads_erases (index : Nat) (paddr : UINT64) (indices : List Nat) :
    Erases (loadContReads phdrs table entsize fw.unaware file index paddr indices)
      (loadContLoop fw file index paddr (recordsAt table entsize indices)) := by
  induction indices generalizing index paddr with
  | nil => exact Erases.pure ()
  | cons i rest ih =>
    -- here `p_memsz` is read twice, for the record and for the next address
    rw [loadContReads, recordsAt, List.map_cons, loadContLoop]
    apply Erases.readField
    by_cases load : loadLE table 4 (entsize * i) = ptLoad
    · rw [if_pos load, if_pos ((decode_pType table (entsize * i)).trans load)]
      simp only [loadContSegment, setSection, segmentPages, alignedMemsz, bind_assoc]
      apply Erases.readField
      refine (Erases.setPosition fw file _).bind fun _ => ?_
      apply Erases.readField
      refine (Erases.readPages fw file _ _).bind fun _ => ?_
      apply Erases.readField
      apply Erases.readField
      apply Erases.readField
      refine (Erases.setInfo _).bind fun _ => ?_
      apply Erases.readField
      exact ih (index + 1) _
    · rw [if_neg load, if_neg (mt (decode_pType table (entsize * i)).symm.trans load)]
      exact ih index paddr

/-- With their reads erased, the loops over the table of `ehdr` are those of `Elf`. -/
theorem tableLoops_erase (ehdr : Elf64Ehdr) (loadBuffer : UINT64) :
    let indices := List.range ehdr.ePhnum.toNat
    let entsize := ehdr.ePhentsize.toNat
    Erases (countLoadableReads phdrs table entsize indices 0)
        (pure (elfCountLoadable ehdr table)) ∧
      Erases (sectionSizeReads phdrs table entsize indices 0)
        (pure (elfGetSectionSize ehdr table)) ∧
      Erases (loadDiscontReads phdrs table entsize fw.unaware file 0 indices)
        (loadDiscontLoop fw file 0 (phdrTable ehdr table)) ∧
      Erases (loadContReads phdrs table entsize fw.unaware file 0 loadBuffer indices)
        (loadContLoop fw file 0 loadBuffer (phdrTable ehdr table)) :=
  ⟨countLoadableReads_erases _ 0, sectionSizeReads_erases _ 0, loadDiscontReads_erases fw file 0 _,
    loadContReads_erases fw file 0 loadBuffer _⟩

end Loops

/-! ## Where the reads go -/

/-- `x` reads memory between `lo` and `hi` only. -/
def ReadsWithin {α : Type} (lo hi : Nat) (x : ElfM α) : Prop :=
  ∀ s, ∃ evs, (after x s).trace = evs ++ s.trace ∧ StaysInside lo hi evs

section ReadsWithin

variable {lo hi : Nat} {α β : Type} {x : ElfM α} {f : α → ElfM β}

theorem ReadsWithin.pure (a : α) : ReadsWithin lo hi (pure a) :=
  fun _ => ⟨[], rfl, .nil⟩

theorem ReadsWithin.bind (h : ReadsWithin lo hi x) (hf : ∀ a, ReadsWithin lo hi (f a)) :
    ReadsWithin lo hi (x >>= f) := by
  intro s
  obtain ⟨evs, trace, inside⟩ := h s
  cases hs : x s with
  | ok a t =>
    -- the reads of the rest come in front of those of `x`
    obtain ⟨evs', trace', inside'⟩ := hf a t
    rw [after_of_ok hs] at trace
    refine ⟨evs' ++ evs, ?_, staysInside_append.mpr ⟨inside', inside⟩⟩
    rw [after, bind_of_ok hs, List.append_assoc, ← trace]
    exact trace'
  | error e t =>
    rw [after_of_error hs] at trace
    exact ⟨evs, by rw [after_of_error (bind_of_error hs), trace], inside⟩

theorem ReadsWithin.readField {phdrs : UINT64} {table : Mem} {n a : Nat}
    {f : BitVec (8 * n) → ElfM β} (here : lo ≤ phdrs.toNat + a ∧ phdrs.toNat + a + n ≤ hi)
    (h : ReadsWithin lo hi (f (loadLE table n a))) :
    ReadsWithin lo hi (readField phdrs table n a >>= f) := by
  intro s
  obtain ⟨evs, trace, inside⟩ := h (s.emit (.load (phdrs.toNat + a) n))
  refine ⟨evs ++ [.load (phdrs.toNat + a) n], ?_, ?_⟩
  · rw [after, readField_bind_apply, List.append_assoc]
    exact trace
  · exact staysInside_append.mpr ⟨inside, staysInside_cons_load.mpr ⟨here, .nil⟩⟩

theorem StaysInside.of_not_load {ev : Event} (quiet : ev.isLoad = false) :
    StaysInside lo hi [ev] := by
  intro a n h
  rw [← List.mem_singleton.mp h] at quiet
  cases quiet

theorem ReadsWithin.call {ev : Except EfiError α → Event} (quiet : ∀ res, (ev res).isLoad = false)
    (res : Except EfiError α) : ReadsWithin lo hi (call ev res) := by
  intro s
  cases res with
  | ok a => exact ⟨_, rfl, .of_not_load (quiet (.ok a))⟩
  | error e => exact ⟨_, rfl, .of_not_load (quiet (.error e))⟩

theorem ReadsWithin.update {f : Machine ElfVars → Machine ElfVars}
    (h : ∀ s, (f s).trace = s.trace) : ReadsWithin lo hi (modify f) :=
  fun s => ⟨[], h s, .nil⟩

variable (fw : Firmware) (file : EfiFile)

theorem ReadsWithin.allocatePages (n : UINTN) : ReadsWithin lo hi (allocatePages fw n) := by
  intro s
  exact ReadsWithin.call (fun _ => rfl) _ s

theorem ReadsWithin.zeroMem (buffer size : Nat) : ReadsWithin lo hi (zeroMem buffer size) :=
  fun _ => ⟨[.store buffer size], rfl, .of_not_load rfl⟩

theorem ReadsWithin.setPosition (position : UINT64) :
    ReadsWithin lo hi (setPosition fw file position) := by
  intro s
  have asked : ReadsWithin lo hi (Nyxboot.call (.setPosition position) _) :=
    .call (fun _ => rfl) (fw.setPosition s.trace position)
  have moved : ReadsWithin lo hi (modify fun t =>
      { t with vars := { t.vars with position := file.seek position } }) :=
    .update fun _ => rfl
  exact asked.bind (fun _ => moved) s

theorem ReadsWithin.readPages (size : UINTN) (buffer : UINT64) :
    ReadsWithin lo hi (readPages fw file size buffer) := by
  intro s
  have asked : ReadsWithin lo hi (Nyxboot.call (.read size (some buffer)) _) :=
    .call (fun _ => rfl) (fw.read s.trace s.vars.position size)
  have stored : ReadsWithin lo hi (modify fun t =>
      { t with
        mem := blit t.mem buffer.toNat (file.delivered s.vars.position size)
        vars := { t.vars with
          position := t.vars.position + (file.delivered s.vars.position size).length } }) :=
    .update fun _ => rfl
  exact asked.bind (fun _ => stored) s

theorem ReadsWithin.setInfo (f : ElfLoadinfo → ElfLoadinfo) : ReadsWithin lo hi (setInfo f) :=
  ReadsWithin.update fun _ => rfl

end ReadsWithin

/-! The fields that are read end 48 bytes into a record: `p_memsz` is the last of them. -/

section LoopsWithin

variable {phdrs : UINT64} {table : Mem} {entsize size : Nat} (fw : Firmware) (file : EfiFile)

/-- A field that ends within 48 bytes of its record lies in the buffer if the record does. -/
theorem field_inside {i a n : Nat} (record : entsize * i + 48 ≤ size) (field : a + n ≤ 48) :
    phdrs.toNat ≤ phdrs.toNat + (entsize * i + a) ∧
      phdrs.toNat + (entsize * i + a) + n ≤ phdrs.toNat + size := by
  omega

theorem type_inside {i : Nat} (record : entsize * i + 48 ≤ size) :
    phdrs.toNat ≤ phdrs.toNat + entsize * i ∧
      phdrs.toNat + entsize * i + 4 ≤ phdrs.toNat + size := by
  omega

theorem countLoadableReads_within {indices : List Nat}
    (records : ∀ i ∈ indices, entsize * i + 48 ≤ size) (count : UINTN) :
    ReadsWithin phdrs.toNat (phdrs.toNat + size)
      (countLoadableReads phdrs table entsize indices count) := by
  induction indices generalizing count with
  | nil => exact .pure count
  | cons i rest ih =>
    rw [List.forall_mem_cons] at records
    apply ReadsWithin.readField (type_inside records.1)
    split
    · exact ih records.2 (count + 1)
    · exact ih records.2 count

theorem sectionSizeReads_within {indices : List Nat}
    (records : ∀ i ∈ indices, entsize * i + 48 ≤ size) (pageCount : UINTN) :
    ReadsWithin phdrs.toNat (phdrs.toNat + size)
      (sectionSizeReads phdrs table entsize indices pageCount) := by
  induction indices generalizing pageCount with
  | nil => exact .pure pageCount
  | cons i rest ih =>
    rw [List.forall_mem_cons] at records
    apply ReadsWithin.readField (type_inside records.1)
    split
    · exact .readField (field_inside records.1 (by decide)) (ih records.2 _)
    · exact ih records.2 pageCount

theorem loadDiscontReads_within {indices : List Nat}
    (records : ∀ i ∈ indices, entsize * i + 48 ≤ size) (index : Nat) :
    ReadsWithin phdrs.toNat (phdrs.toNat + size)
      (loadDiscontReads phdrs table entsize fw file index indices) := by
  induction indices generalizing index with
  | nil => exact .pure ()
  | cons i rest ih =>
    rw [List.forall_mem_cons] at records
    apply ReadsWithin.readField (type_inside records.1)
    split
    · apply ReadsWithin.readField (field_inside records.1 (by decide))
      refine (ReadsWithin.allocatePages fw _).bind fun paddr => ?_
      refine (ReadsWithin.zeroMem _ _).bind fun _ => ?_
      apply ReadsWithin.readField (field_inside records.1 (by decide))
      refine (ReadsWithin.setPosition fw file _).bind fun _ => ?_
      apply ReadsWithin.readField (field_inside records.1 (by decide))
      refine (ReadsWithin.readPages fw file _ _).bind fun _ => ?_
      apply ReadsWithin.readField (field_inside records.1 (by decide))
      apply ReadsWithin.readField (field_inside records.1 (by decide))
      exact (ReadsWithin.setInfo _).bind fun _ => ih records.2 (index + 1)
    · exact ih records.2 index

theorem loadContReads_within {indices : List Nat}
    (records : ∀ i ∈ indices, entsize * i + 48 ≤ size) (index : Nat) (paddr : UINT64) :
    ReadsWithin phdrs.toNat (phdrs.toNat + size)
      (loadContReads phdrs table entsize fw file index paddr indices) := by
  induction indices generalizing index paddr with
  | nil => exact .pure ()
  | cons i rest ih =>
    rw [List.forall_mem_cons] at records
    apply ReadsWithin.readField (type_inside records.1)
    split
    · apply ReadsWithin.readField (field_inside records.1 (by decide))
      refine (ReadsWithin.setPosition fw file _).bind fun _ => ?_
      apply ReadsWithin.readField (field_inside records.1 (by decide))
      refine (ReadsWithin.readPages fw file _ _).bind fun _ => ?_
      apply ReadsWithin.readField (field_inside records.1 (by decide))
      apply ReadsWithin.readField (field_inside records.1 (by decide))
      apply ReadsWithin.readField (field_inside records.1 (by decide))
      refine (ReadsWithin.setInfo _).bind fun _ => ?_
      exact .readField (field_inside records.1 (by decide)) (ih records.2 (index + 1) _)
    · exact ih records.2 index paddr

end LoopsWithin

/-! ## The whole table -/

/-- The buffer for the table of `ehdr` has the size of the table, and every read of it by
    one of the four loops stays in it. -/
structure TableReadsInside (ehdr : Elf64Ehdr) : Prop where
  size : (phdrBufferBytes ehdr).toNat = phdrBufferSize ehdr
  countLoadable : ∀ phdrs table count,
    ReadsWithin phdrs.toNat (phdrs.toNat + (phdrBufferBytes ehdr).toNat)
      (countLoadableReads phdrs table ehdr.ePhentsize.toNat (List.range ehdr.ePhnum.toNat) count)
  sectionSize : ∀ phdrs table pageCount,
    ReadsWithin phdrs.toNat (phdrs.toNat + (phdrBufferBytes ehdr).toNat)
      (sectionSizeReads phdrs table ehdr.ePhentsize.toNat (List.range ehdr.ePhnum.toNat) pageCount)
  loadDiscont : ∀ phdrs table fw file index,
    ReadsWithin phdrs.toNat (phdrs.toNat + (phdrBufferBytes ehdr).toNat)
      (loadDiscontReads phdrs table ehdr.ePhentsize.toNat fw file index
        (List.range ehdr.ePhnum.toNat))
  loadCont : ∀ phdrs table fw file index paddr,
    ReadsWithin phdrs.toNat (phdrs.toNat + (phdrBufferBytes ehdr).toNat)
      (loadContReads phdrs table ehdr.ePhentsize.toNat fw file index paddr
        (List.range ehdr.ePhnum.toNat))

section Table

variable {ehdr : Elf64Ehdr}

theorem phdrBufferSize_lt (ehdr : Elf64Ehdr) : phdrBufferSize ehdr < 2 ^ 32 := by
  have num : ehdr.ePhnum.toNat ≤ 65535 := Nat.le_of_lt_succ ehdr.ePhnum.isLt
  have entsize : ehdr.ePhentsize.toNat ≤ 65535 := Nat.le_of_lt_succ ehdr.ePhentsize.isLt
  exact Nat.lt_of_le_of_lt (Nat.mul_le_mul num entsize) (by decide)

/-- The product as the 32 bits of an `int`. -/
theorem product_toNat (ehdr : Elf64Ehdr) :
    (ehdr.ePhnum.setWidth 32 * ehdr.ePhentsize.setWidth 32).toNat = phdrBufferSize ehdr := by
  have num : ehdr.ePhnum.toNat < 2 ^ 32 := Nat.lt_trans ehdr.ePhnum.isLt (by decide)
  have entsize : ehdr.ePhentsize.toNat < 2 ^ 32 := Nat.lt_trans ehdr.ePhentsize.isLt (by decide)
  rw [BitVec.toNat_mul, BitVec.toNat_setWidth, BitVec.toNat_setWidth, Nat.mod_eq_of_lt num,
    Nat.mod_eq_of_lt entsize]
  exact Nat.mod_eq_of_lt (phdrBufferSize_lt ehdr)

/-- Up to `INT_MAX` the product is exact, from there on its sign is extended. -/
theorem phdrBufferBytes_exact_iff :
    (phdrBufferBytes ehdr).toNat = phdrBufferSize ehdr ↔ phdrBufferSize ehdr < 2 ^ 31 := by
  have bound := phdrBufferSize_lt ehdr
  rw [phdrBufferBytes, BitVec.toNat_signExtend, BitVec.toNat_setWidth, BitVec.msb_eq_decide,
    product_toNat, Nat.mod_eq_of_lt (Nat.lt_trans bound (by decide))]
  by_cases small : phdrBufferSize ehdr < 2 ^ 31
  · -- the sign bit is clear: nothing is added
    have sign : ¬2 ^ (32 - 1) ≤ phdrBufferSize ehdr := Nat.not_le_of_lt small
    simp only [sign, decide_false, Bool.false_eq_true, if_false, small, Nat.add_zero]
  · -- the sign bit is set, and the upper half becomes ones
    have sign : 2 ^ (32 - 1) ≤ phdrBufferSize ehdr := Nat.le_of_not_lt small
    simp only [sign, decide_true, if_true, small, iff_false]
    omega

/-- Where `elf_get_file_info` is defined, this is the size it asks for. -/
theorem phdrBufferBytes_of_lt (small : phdrBufferSize ehdr < 2 ^ 31) :
    phdrBufferBytes ehdr = BitVec.ofNat 64 (phdrBufferSize ehdr) := by
  rw [← phdrBufferBytes_exact_iff.mpr small]
  simp

/-- Every record ends inside the table, or at least what is read of it does. -/
theorem record_inside (wide : 48 ≤ ehdr.ePhentsize.toNat) :
    ∀ i ∈ List.range ehdr.ePhnum.toNat, ehdr.ePhentsize.toNat * i + 48 ≤ phdrBufferSize ehdr := by
  intro i hi
  have next : i + 1 ≤ ehdr.ePhnum.toNat := List.mem_range.mp hi
  calc ehdr.ePhentsize.toNat * i + 48
      ≤ ehdr.ePhentsize.toNat * i + ehdr.ePhentsize.toNat := Nat.add_le_add_left wide _
    _ = (i + 1) * ehdr.ePhentsize.toNat := by rw [Nat.succ_mul, Nat.mul_comm]
    _ ≤ phdrBufferSize ehdr := Nat.mul_le_mul_right _ next

theorem tableReadsInside_of_wide (small : phdrBufferSize ehdr < 2 ^ 31)
    (records : ∀ i ∈ List.range ehdr.ePhnum.toNat,
      ehdr.ePhentsize.toNat * i + 48 ≤ phdrBufferSize ehdr) : TableReadsInside ehdr := by
  have size := phdrBufferBytes_exact_iff.mpr small
  rw [← size] at records
  exact {
    size
    countLoadable := fun _ _ count => countLoadableReads_within records count
    sectionSize := fun _ _ pageCount => sectionSizeReads_within records pageCount
    loadDiscont := fun _ _ fw file index => loadDiscontReads_within fw file records index
    loadCont := fun _ _ fw file index paddr =>
      loadContReads_within fw file records index paddr }

end Table

section Narrow

variable {phdrs : UINT64} {table : Mem} {entsize : Nat}

theorem sectionSizeReads_append (indices indices' : List Nat) (pageCount : UINTN) :
    sectionSizeReads phdrs table entsize (indices ++ indices') pageCount =
      sectionSizeReads phdrs table entsize indices pageCount >>=
        sectionSizeReads phdrs table entsize indices' := by
  induction indices generalizing pageCount with
  | nil => rfl
  | cons i rest ih =>
    simp only [List.cons_append, sectionSizeReads, bind_assoc]
    congr 1
    funext type
    split
    · simp only [bind_assoc, ih]
    · exact ih pageCount

/-- A program that is a value when its loads are erased returns that value. -/
theorem Erases.returns {α : Type} {x : ElfM α} {a : α} (h : Erases x (Pure.pure a))
    (s : Machine ElfVars) : ∃ t, x s = .ok a t := by
  have erased := h s
  cases hs : x s with
  | ok b t =>
    rw [hs] at erased
    obtain ⟨rfl, _⟩ := EStateM.Result.ok.inj erased
    exact ⟨t, rfl⟩
  | error e t =>
    rw [hs] at erased
    cases erased

/-- The round of `elf_get_section_size` for a segment to load. -/
theorem sectionSizeReads_segment {i : Nat} (load : loadLE table 4 (entsize * i) = ptLoad)
    (pageCount : UINTN) (s : Machine ElfVars) :
    (after (sectionSizeReads phdrs table entsize [i] pageCount) s).trace =
      .load (phdrs.toNat + (entsize * i + 40)) 8 :: .load (phdrs.toNat + entsize * i) 4 ::
        s.trace := by
  rw [sectionSizeReads, after, readField_bind_apply, if_pos load, readField_bind_apply]
  rfl

/-- If record `i` is a segment to load, its `p_memsz` is read. -/
theorem sectionSizeReads_reads_memsz {i : Nat} (load : loadLE table 4 (entsize * i) = ptLoad)
    (s : Machine ElfVars) :
    Event.load (phdrs.toNat + (entsize * i + 40)) 8 ∈
      (after (sectionSizeReads phdrs table entsize (List.range (i + 1)) 0) s).trace := by
  have erases : Erases (sectionSizeReads phdrs table entsize (List.range i) 0) (pure _) :=
    sectionSizeReads_erases (List.range i) 0
  -- the rounds before it return, whatever they read
  obtain ⟨t, before⟩ := erases.returns s
  rw [List.range_succ, sectionSizeReads_append, after, bind_of_ok before]
  change _ ∈ (after (sectionSizeReads phdrs table entsize [i] _) t).trace
  rw [sectionSizeReads_segment load]
  exact List.mem_cons_self

/-- A table whose record `i` is a segment to load. -/
def segmentAt (entsize i : Nat) : Mem := storeLE (fun _ => 0) 4 (entsize * i) ptLoad

/-- Records of less than 48 bytes: `p_memsz` of the last one is behind the table. -/
theorem not_tableReadsInside_of_narrow {ehdr : Elf64Ehdr} (nonempty : ehdr.ePhnum ≠ 0)
    (narrow : ehdr.ePhentsize.toNat < 48) : ¬TableReadsInside ehdr := by
  intro inside
  -- only the last record sticks out for sure
  have pos : 0 < ehdr.ePhnum.toNat := Nat.pos_of_ne_zero fun h => nonempty (BitVec.eq_of_toNat_eq h)
  obtain ⟨last, hlast⟩ := Nat.exists_eq_succ_of_ne_zero (Nat.ne_of_gt pos)
  have load : loadLE (segmentAt ehdr.ePhentsize.toNat last) 4 (ehdr.ePhentsize.toNat * last) =
      ptLoad := loadLE_storeLE_same _ 4 _ _
  let start : Machine ElfVars := ⟨fun _ => 0, [], ⟨0, ⟨0, 0, 0, []⟩⟩⟩
  obtain ⟨evs, trace, stays⟩ :=
    inside.sectionSize 0 (segmentAt ehdr.ePhentsize.toNat last) 0 start
  rw [hlast] at trace
  have read : Event.load ((0 : UINT64).toNat + (ehdr.ePhentsize.toNat * last + 40)) 8 ∈ _ :=
    sectionSizeReads_reads_memsz load start
  rw [trace, List.append_nil] at read
  have bound := (stays _ _ read).2
  -- `entsize * last + 48 ≤ entsize * last + entsize`
  rw [inside.size, phdrBufferSize, hlast, Nat.succ_mul, Nat.mul_comm last] at bound
  omega

end Narrow

/-- Program header accesses stay inside the table buffer exactly when the size of the table
    is an `int` and a record is wide enough for the fields that are read. -/
theorem tableReadsInside_iff (ehdr : Elf64Ehdr) :
    TableReadsInside ehdr ↔
      ehdr.ePhnum.toNat * ehdr.ePhentsize.toNat < 2 ^ 31 ∧
        (ehdr.ePhnum = 0 ∨ 48 ≤ ehdr.ePhentsize.toNat) := by
  constructor
  · intro inside
    refine ⟨phdrBufferBytes_exact_iff.mp inside.size, ?_⟩
    by_contra narrow
    rw [not_or, Nat.not_le] at narrow
    exact not_tableReadsInside_of_narrow narrow.1 narrow.2 inside
  · rintro ⟨small, empty | wide⟩
    · -- no records, no reads
      apply tableReadsInside_of_wide small
      rw [empty]
      intro i hi
      cases List.mem_range.mp hi
    · exact tableReadsInside_of_wide small (record_inside wide)

/-- A header that `elf_verify_ehdr` has nothing against. -/
def tableEhdr (phnum phentsize : UINT16) : Elf64Ehdr where
  eIdent := [0x7F, 0x45, 0x4C, 0x46, 2, 1, 1, 0, 0, 0, 0, 0, 0, 0, 0, 0]
  eType := 2
  eMachine := 62
  eVersion := 1
  eEntry := 0
  ePhoff := 64
  ePhentsize := phentsize
  ePhnum := phnum

theorem elfVerifyEhdr_tableEhdr (phnum phentsize : UINT16) (s : Machine ElfVars) :
    elfVerifyEhdr (tableEhdr phnum phentsize) s = .ok () s := rfl

/-- The records of 32-bit ELF files have 32 bytes.  The largest table that a header can
    announce has more than `INT_MAX`. -/
theorem accepted_table_not_inside :
    (∀ s, elfVerifyEhdr (tableEhdr 1 32) s = .ok () s) ∧ ¬TableReadsInside (tableEhdr 1 32) ∧
      (∀ s, elfVerifyEhdr (tableEhdr 65535 65535) s = .ok () s) ∧
      ¬TableReadsInside (tableEhdr 65535 65535) := by
  refine ⟨elfVerifyEhdr_tableEhdr 1 32, ?_, elfVerifyEhdr_tableEhdr 65535 65535, ?_⟩
  · exact not_tableReadsInside_of_narrow (by decide) (by decide)
  · intro inside
    exact absurd (phdrBufferBytes_exact_iff.mp inside.size) (by decide)

end MidnightOS.Nyxboot
