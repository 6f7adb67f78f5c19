import MidnightOS.Arch.Cpu
import MidnightOS.Lib.StackMemory

/-! # The interrupt descriptor table (`asm/desc_defs.h`, `asm/desc.h`, `kernel/idt.c`)

A gate is a packed structure of sixteen bytes, with the address of its handler in
three places.  The table is written entry by entry, so the last entry for a vector
is the one that stays.
-/

namespace MidnightOS.Arch

open MidnightOS.Lib

/-! ## Gates -/

/-- `struct idt_bits` -/
structure IdtBits where
  ist : BitVec 3
  zero : BitVec 5
  type : BitVec 5
  dpl : BitVec 2
  p : BitVec 1
deriving DecidableEq

/-- The first field has the lowest bits. -/
def IdtBits.word (bits : IdtBits) : BitVec 16 :=
  bits.p ++ bits.dpl ++ bits.type ++ bits.zero ++ bits.ist

/-- `struct idt_data` -/
structure IdtData where
  vector : BitVec 16
  segment : BitVec 16
  bits : IdtBits
  addr : U64
deriving DecidableEq

/-- `struct gate_struct` -/
structure GateDesc where
  offset0 : BitVec 16
  segment : BitVec 16
  bits : IdtBits
  offset1 : BitVec 16
  offset2 : BitVec 32
  reserved : BitVec 32
deriving DecidableEq

/-- The structure is packed. -/
def GateDesc.bytes (gate : GateDesc) : List Byte :=
  leBytes 2 gate.offset0 ++ leBytes 2 gate.segment ++ leBytes 2 gate.bits.word ++
    leBytes 2 gate.offset1 ++ leBytes 4 gate.offset2 ++ leBytes 4 gate.reserved

/-- The address that the processor takes from a gate. -/
def GateDesc.handler (gate : GateDesc) : U64 := gate.offset2 ++ gate.offset1 ++ gate.offset0

def GATE_INTERRUPT : BitVec 5 := 0xE

def DPL0 : BitVec 2 := 0x0

/-- `GATE` -/
def gateData (vector : BitVec 16) (addr : U64) (ist : BitVec 3) (type : BitVec 5) (dpl : BitVec 2)
    (segment : BitVec 16) : IdtData :=
  ⟨vector, segment, ⟨ist, 0, type, dpl, 1⟩, addr⟩

/-- `INTG` -/
def intg (vector : BitVec 16) (addr : U64) : IdtData :=
  gateData vector addr 0 GATE_INTERRUPT DPL0 0x08

def idtInitDesc (d : IdtData) : GateDesc where
  offset0 := d.addr.setWidth 16
  offset1 := (d.addr >>> 16).setWidth 16
  offset2 := (d.addr >>> 32).setWidth 32
  segment := d.segment
  bits := d.bits
  reserved := 0

/-! ## The table -/

def IDT_ENTRIES : Nat := 256

/-- `&idt[vector]` -/
def idtEntry (idt : U64) (vector : Nat) : U64 := behind idt (16 * vector)

def writeIdtEntry (idt : U64) (vector : Nat) (gate : GateDesc) (m : WordMem) : WordMem :=
  copyAt m (idtEntry idt vector) gate.bytes

def idtSetupFromTable (idt : U64) (table : List IdtData) (m : WordMem) : WordMem :=
  table.foldl (fun m d => writeIdtEntry idt d.vector.toNat (idtInitDesc d) m) m

def earlyIdt (dbgEntry : U64) : List IdtData := [intg 1 dbgEntry, intg 3 dbgEntry]

def idtSetupEarlyTraps (idt dbgEntry : U64) (m : WordMem) : WordMem :=
  idtSetupFromTable idt (earlyIdt dbgEntry) m

/-- The sixteen bytes of an entry. -/
def entryBytes (m : WordMem) (idt : U64) (vector : Nat) : List Byte :=
  bytesAt m (idtEntry idt vector) 16

/-! ## What a gate holds -/

@[simp] theorem GateDesc.length_bytes (gate : GateDesc) : gate.bytes.length = 16 := by
  simp [GateDesc.bytes]

/-- The three parts of an address make it up again. -/
theorem handler_idtInitDesc (d : IdtData) : (idtInitDesc d).handler = d.addr := by
  apply BitVec.eq_of_getLsbD_eq
  intro i hi
  simp only [GateDesc.handler, idtInitDesc, BitVec.getLsbD_append, BitVec.getLsbD_setWidth,
    BitVec.getLsbD_ushiftRight]
  rcases (by omega : i < 16 ∨ (16 ≤ i ∧ i < 32) ∨ 32 ≤ i) with low | ⟨above, middle⟩ | high
  · simp [low]
  · simp [show ¬i < 16 by omega, show i - 16 < 16 by omega, show 16 + (i - 16) = i by omega]
  · simp [show ¬i < 16 by omega, show ¬i - 16 < 16 by omega, show i - 16 - 16 < 32 by omega,
      show 32 + (i - 16 - 16) = i by omega]

/-- The two quadwords of a gate. -/
theorem GateDesc.bytes_eq (gate : GateDesc) :
    gate.bytes = leBytes 8 (gate.offset1 ++ (gate.bits.word ++ (gate.segment ++ gate.offset0))) ++
      leBytes 8 (gate.reserved ++ gate.offset2) := by
  have first : leBytes 2 gate.offset0 ++ leBytes 2 gate.segment =
      leBytes 4 (gate.segment ++ gate.offset0) := leBytes_append _ _
  have second : leBytes 4 (gate.segment ++ gate.offset0) ++ leBytes 2 gate.bits.word =
      leBytes 6 (gate.bits.word ++ (gate.segment ++ gate.offset0)) := leBytes_append _ _
  have third : leBytes 6 (gate.bits.word ++ (gate.segment ++ gate.offset0)) ++
      leBytes 2 gate.offset1 =
        leBytes 8 (gate.offset1 ++ (gate.bits.word ++ (gate.segment ++ gate.offset0))) :=
    leBytes_append _ _
  have upper : leBytes 4 gate.offset2 ++ leBytes 4 gate.reserved =
      leBytes 8 (gate.reserved ++ gate.offset2) := leBytes_append _ _
  rw [GateDesc.bytes, first, second, third, List.append_assoc, upper]

/-! ## What the table holds -/

theorem idtEntry_apart (idt : U64) {u v k : Nat} (hu : u < IDT_ENTRIES) (hv : v < IDT_ENTRIES)
    (hne : u ≠ v) (hk : k < 16) : 16 ≤ (behind (idtEntry idt v) k - idtEntry idt u).toNat := by
  unfold IDT_ENTRIES at hu hv
  unfold idtEntry behind
  bv_omega

theorem entryBytes_writeIdtEntry (idt : U64) (v : Nat) (gate : GateDesc) (m : WordMem) :
    entryBytes (writeIdtEntry idt v gate m) idt v = gate.bytes := by
  have short : gate.bytes.length ≤ 2 ^ 64 := by simp
  have copied := bytesAt_copyAt_same m (idtEntry idt v) short
  rw [gate.length_bytes] at copied
  exact copied

theorem entryBytes_writeIdtEntry_other (idt : U64) {u v : Nat} (hu : u < IDT_ENTRIES)
    (hv : v < IDT_ENTRIES) (hne : u ≠ v) (gate : GateDesc) (m : WordMem) :
    entryBytes (writeIdtEntry idt u gate m) idt v = entryBytes m idt v := by
  apply bytesAt_congr
  intro k hk
  apply copyAt_outside
  rw [gate.length_bytes]
  exact idtEntry_apart idt hu hv hne hk

theorem writeIdtEntry_outside (idt : U64) {v : Nat} (hv : v < IDT_ENTRIES) (gate : GateDesc)
    (m : WordMem) {x : U64} (hx : 16 * IDT_ENTRIES ≤ (x - idt).toNat) :
    writeIdtEntry idt v gate m x = m x := by
  apply copyAt_outside
  rw [gate.length_bytes]
  unfold IDT_ENTRIES at hv hx
  unfold idtEntry behind
  bv_omega

/-- The last entry of a table for a vector. -/
def lastEntry (table : List IdtData) (v : Nat) : Option IdtData :=
  table.reverse.find? fun d => d.vector.toNat = v

theorem lastEntry_concat (table : List IdtData) (d : IdtData) (v : Nat) :
    lastEntry (table ++ [d]) v = if d.vector.toNat = v then some d else lastEntry table v := by
  rw [lastEntry, List.reverse_append, List.reverse_singleton, List.singleton_append]
  by_cases h : d.vector.toNat = v
  · rw [List.find?_cons_of_pos (by simpa using h), if_pos h]
  · rw [List.find?_cons_of_neg (by simpa using h), if_neg h]
    rfl

/-- Entry `v` after a table is written. -/
def lastGate (table : List IdtData) (old : List Byte) (v : Nat) : List Byte :=
  match lastEntry table v with
  | some d => (idtInitDesc d).bytes
  | none => old

theorem idtSetupFromTable_concat (idt : U64) (table : List IdtData) (d : IdtData) (m : WordMem) :
    idtSetupFromTable idt (table ++ [d]) m =
      writeIdtEntry idt d.vector.toNat (idtInitDesc d) (idtSetupFromTable idt table m) := by
  rw [idtSetupFromTable, List.foldl_append]
  rfl

/-- The last entry for a vector stays, and the others leave its entry alone. -/
theorem entryBytes_idtSetupFromTable (idt : U64) {table : List IdtData}
    (htable : ∀ d ∈ table, d.vector.toNat < IDT_ENTRIES) {v : Nat} (hv : v < IDT_ENTRIES)
    (m : WordMem) :
    entryBytes (idtSetupFromTable idt table m) idt v =
      lastGate table (entryBytes m idt v) v := by
  induction table using List.reverseRecOn with
  | nil => rfl
  | append_singleton table d ih =>
    have hd : d.vector.toNat < IDT_ENTRIES := htable d (by simp)
    have hrest : ∀ other ∈ table, other.vector.toNat < IDT_ENTRIES :=
      fun other hother => htable other (List.mem_append_left _ hother)
    rw [idtSetupFromTable_concat, lastGate, lastEntry_concat]
    by_cases h : d.vector.toNat = v
    · subst h
      rw [entryBytes_writeIdtEntry, if_pos rfl]
    · rw [entryBytes_writeIdtEntry_other idt hd hv h, ih hrest, if_neg h]
      rfl

theorem idtSetupFromTable_outside (idt : U64) {table : List IdtData}
    (htable : ∀ d ∈ table, d.vector.toNat < IDT_ENTRIES) (m : WordMem) {x : U64}
    (hx : 16 * IDT_ENTRIES ≤ (x - idt).toNat) : idtSetupFromTable idt table m x = m x := by
  induction table using List.reverseRecOn with
  | nil => rfl
  | append_singleton table d ih =>
    rw [idtSetupFromTable_concat, writeIdtEntry_outside idt (htable d (by simp)) _ _ hx]
    exact ih fun other hother => htable other (List.mem_append_left _ hother)

end MidnightOS.Arch
