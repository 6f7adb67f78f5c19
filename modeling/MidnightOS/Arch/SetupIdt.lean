import MidnightOS.Arch.Entry
import MidnightOS.Arch.Idt

/-! # The first interrupt descriptor table (`init/head.asm`)

`setup_idt` computes the two quadwords of one gate in `rax` and `rdx` and fills the
table with it.  A write of 16 bits keeps the rest of the register, a write of 32 bits
clears it.
-/

namespace MidnightOS.Arch

open MidnightOS.Lib

/-- The registers and the memory.  Nothing here reads the flags. -/
structure HeadState where
  gpr : Reg → U64
  mem : WordMem

/-- The instructions of `setup_idt`.  The symbol of a `lea` is given by its address. -/
inductive HeadInstr where
  | lea (dst : Reg) (symbol : U64)
  | mov16Imm (dst : Reg) (imm : BitVec 16)
  | mov16 (dst src : Reg)
  | mov32Imm (dst : Reg) (imm : BitVec 32)
  | mov32 (dst src : Reg)
  | mov64Imm (dst : Reg) (imm : U64)
  | shl (dst : Reg) (count : Nat)
  | shr (dst : Reg) (count : Nat)
  | or (dst src : Reg)
  | addImm (dst : Reg) (imm : U64)
  | store (base : Reg) (offset : Nat) (src : Reg)

def HeadState.write64 (s : HeadState) (r : Reg) (w : U64) : HeadState :=
  { s with gpr := Function.update s.gpr r w }

def HeadState.write32 (s : HeadState) (r : Reg) (w : BitVec 32) : HeadState :=
  s.write64 r (w.setWidth 64)

def HeadState.write16 (s : HeadState) (r : Reg) (w : BitVec 16) : HeadState :=
  s.write64 r ((s.gpr r).extractLsb' 16 48 ++ w)

def headExec (s : HeadState) : HeadInstr → HeadState
  | .lea dst symbol => s.write64 dst symbol
  | .mov16Imm dst imm => s.write16 dst imm
  | .mov16 dst src => s.write16 dst ((s.gpr src).setWidth 16)
  | .mov32Imm dst imm => s.write32 dst imm
  | .mov32 dst src => s.write32 dst ((s.gpr src).setWidth 32)
  | .mov64Imm dst imm => s.write64 dst imm
  | .shl dst count => s.write64 dst (s.gpr dst <<< count)
  | .shr dst count => s.write64 dst (s.gpr dst >>> count)
  | .or dst src => s.write64 dst (s.gpr dst ||| s.gpr src)
  | .addImm dst imm => s.write64 dst (s.gpr dst + imm)
  | .store base offset src =>
    { s with mem := storeAt s.mem (behind (s.gpr base) offset) (s.gpr src) }

def headRun (code : List HeadInstr) (s : HeadState) : HeadState := code.foldl headExec s

/-! ## The code -/

/-- The quadwords of the gate for `ignore_int`. -/
def gateCode (ignoreInt : U64) : List HeadInstr :=
  [.lea .rdx ignoreInt, .mov32Imm .rax 0x00080000, .mov16 .rax .rdx, .mov16Imm .rdx 0x8E00,
    .mov32 .rdi .rdx, .shl .rdi 32, .or .rax .rdi, .shr .rdx 32]

def fillCode (idt : U64) : List HeadInstr := [.lea .rdi idt, .mov64Imm .rcx 256]

/-- `.fill_idt`, up to the `loop`. -/
def fillBody : List HeadInstr := [.store .rdi 0 .rax, .store .rdi 8 .rdx, .addImm .rdi 16]

/-- `loop` counts `rcx` down, and ends at 0. -/
def fillIdt : (fuel : Nat) → HeadState → Option HeadState
  | 0, _ => none
  | fuel + 1, s =>
    let s := headRun fillBody s
    let s := s.write64 .rcx (s.gpr .rcx - 1)
    if s.gpr .rcx = 0 then some s else fillIdt fuel s

/-- `setup_idt`, up to the `lidt`. -/
def setupIdt (idt ignoreInt : U64) (s : HeadState) : Option HeadState :=
  fillIdt IDT_ENTRIES (headRun (gateCode ignoreInt ++ fillCode idt) s)

/-! ## One gate -/

/-- What an interrupt gate looks like to the assembler. -/
theorem gate_word : (IdtBits.mk 0 0 GATE_INTERRUPT DPL0 1).word = 0x8E00 := by decide

theorem gateCode_rax (a : U64) (s : HeadState) :
    (headRun (gateCode a) s).gpr .rax =
      (((0x00080000 : BitVec 32).setWidth 64).extractLsb' 16 48 ++ a.setWidth 16 : U64) |||
        (((a.extractLsb' 16 48 ++ (0x8E00 : BitVec 16) : U64).setWidth 32).setWidth 64) <<< 32 := by
  simp [headRun, gateCode, headExec, HeadState.write16, HeadState.write32, HeadState.write64]

theorem gateCode_rdx (a : U64) (s : HeadState) :
    (headRun (gateCode a) s).gpr .rdx =
      (a.extractLsb' 16 48 ++ (0x8E00 : BitVec 16) : U64) >>> 32 := by
  simp [headRun, gateCode, headExec, HeadState.write16, HeadState.write32, HeadState.write64]

theorem gateCode_low (a : U64) (s : HeadState) :
    (headRun (gateCode a) s).gpr .rax =
      (a >>> 16).setWidth 16 ++ ((0x8E00 : BitVec 16) ++ ((0x08 : BitVec 16) ++ a.setWidth 16)) := by
  have upper : ((0x00080000 : BitVec 32).setWidth 64).extractLsb' 16 48 =
      (0 : BitVec 32) ++ (0x08 : BitVec 16) := by decide
  rw [gateCode_rax, upper]
  apply BitVec.eq_of_getLsbD_eq
  intro i hi
  simp only [BitVec.getLsbD_or, BitVec.getLsbD_append, BitVec.getLsbD_shiftLeft,
    BitVec.getLsbD_setWidth, BitVec.getLsbD_ushiftRight, BitVec.getLsbD_extractLsb']
  rcases (by omega : i < 16 ∨ (16 ≤ i ∧ i < 32) ∨ (32 ≤ i ∧ i < 48) ∨ 48 ≤ i) with
    first | ⟨_, second⟩ | ⟨_, third⟩ | fourth
  · simp [first, show i < 32 by omega, show ¬48 ≤ i by omega]
  · simp [second, show ¬i < 16 by omega, show i - 16 < 16 by omega, show ¬48 ≤ i by omega]
  · simp [third, show ¬i < 16 by omega, show ¬i < 32 by omega, show ¬i - 16 < 16 by omega,
      show i - 32 < 16 by omega, show i - 16 - 16 = i - 32 by omega, show i < 64 by omega,
      show i - 32 < 32 by omega, show i - 32 < 64 by omega]
  · simp [show ¬i < 16 by omega, show ¬i < 32 by omega, show ¬i < 48 by omega,
      show ¬i - 16 < 16 by omega, show ¬i - 32 < 16 by omega, show i - 48 < 16 by omega,
      show i < 64 by omega, show i - 32 < 32 by omega, show i - 32 - 16 < 48 by omega,
      show i - 32 < 64 by omega, show 16 + (i - 32 - 16) = i - 32 by omega,
      show 16 + (i - 48) = i - 32 by omega]

theorem gateCode_high (a : U64) (s : HeadState) :
    (headRun (gateCode a) s).gpr .rdx = (0 : BitVec 32) ++ (a >>> 32).setWidth 32 := by
  rw [gateCode_rdx]
  apply BitVec.eq_of_getLsbD_eq
  intro i hi
  simp only [BitVec.getLsbD_append, BitVec.getLsbD_setWidth, BitVec.getLsbD_ushiftRight,
    BitVec.getLsbD_extractLsb']
  by_cases low : i < 32
  · simp [low, show ¬32 + i < 16 by omega, show 32 + i - 16 < 48 by omega,
      show 16 + (32 + i - 16) = 32 + i by omega]
  · simp [low, show ¬32 + i < 16 by omega, show ¬32 + i - 16 < 48 by omega]

/-- The C encoder and the assembler make the same sixteen bytes. -/
theorem bytes_intg (vector : BitVec 16) (a : U64) (s : HeadState) :
    (idtInitDesc (intg vector a)).bytes =
      leBytes 8 ((headRun (gateCode a) s).gpr .rax) ++
        leBytes 8 ((headRun (gateCode a) s).gpr .rdx) := by
  have word : (idtInitDesc (intg vector a)).bits.word = 0x8E00 := gate_word
  rw [GateDesc.bytes_eq, word, gateCode_low, gateCode_high]
  rfl

/-! ## The whole table -/

/-- The registers that the loop reads. -/
structure Filling (idt : U64) (gate : GateDesc) (v : Nat) (s : HeadState) : Prop where
  bytes : leBytes 8 (s.gpr .rax) ++ leBytes 8 (s.gpr .rdx) = gate.bytes
  rdi : s.gpr .rdi = idtEntry idt v
  rcx : s.gpr .rcx = BitVec.ofNat 64 (IDT_ENTRIES - v)

/-- A round writes one entry. -/
theorem fillBody_mem {idt : U64} {gate : GateDesc} {v : Nat} {s : HeadState}
    (h : Filling idt gate v s) : (headRun fillBody s).mem = writeIdtEntry idt v gate s.mem := by
  have stores : (headRun fillBody s).mem =
      storeAt (storeAt s.mem (behind (s.gpr .rdi) 0) (s.gpr .rax)) (behind (s.gpr .rdi) 8)
        (s.gpr .rdx) := rfl
  have lengths : (leBytes 8 (s.gpr .rax)).length + (leBytes 8 (s.gpr .rdx)).length ≤ 2 ^ 64 := by
    simp
  have copies := copyAt_append s.mem (idtEntry idt v) lengths
  rw [length_leBytes, h.bytes] at copies
  rw [stores, h.rdi, behind_zero, storeAt_eq_copyAt, storeAt_eq_copyAt, copies]
  rfl

theorem fillBody_next {idt : U64} {gate : GateDesc} {v : Nat} (hv : v < IDT_ENTRIES) {s : HeadState}
    (h : Filling idt gate v s) :
    let s' := headRun fillBody s
    Filling idt gate (v + 1) (s'.write64 .rcx (s'.gpr .rcx - 1)) := by
  unfold IDT_ENTRIES at hv
  refine ⟨?_, ?_, ?_⟩
  · exact h.bytes
  · have hrdi : (headRun fillBody s).gpr .rdi = s.gpr .rdi + 16 := rfl
    have hnext : idtEntry idt v + 16 = idtEntry idt (v + 1) := by
      unfold idtEntry behind
      bv_omega
    rw [← hnext, ← h.rdi, ← hrdi]
    rfl
  · have hrcx : (headRun fillBody s).gpr .rcx = s.gpr .rcx := rfl
    have hdown : BitVec.ofNat 64 (IDT_ENTRIES - v) - 1 = BitVec.ofNat 64 (IDT_ENTRIES - (v + 1)) := by
      unfold IDT_ENTRIES
      bv_omega
    rw [← hdown, ← h.rcx, ← hrcx]
    rfl

theorem fillIdt_fills {idt : U64} {gate : GateDesc} {fuel v : Nat} {s : HeadState}
    (h : Filling idt gate v s) (hv : v < IDT_ENTRIES) (hfuel : IDT_ENTRIES - v ≤ fuel) :
    ∃ s', fillIdt fuel s = some s' ∧ s'.mem =
      (List.range' v (IDT_ENTRIES - v)).foldl (fun m u => writeIdtEntry idt u gate m) s.mem := by
  induction fuel generalizing v s with
  | zero => omega
  | succ fuel ih =>
    have hnext := fillBody_next hv h
    have hmem := fillBody_mem h
    have hrange : List.range' v (IDT_ENTRIES - v) =
        v :: List.range' (v + 1) (IDT_ENTRIES - (v + 1)) := by
      rw [show IDT_ENTRIES - v = IDT_ENTRIES - (v + 1) + 1 by omega]
      rfl
    rw [hrange, List.foldl_cons, ← hmem, fillIdt]
    dsimp only at hnext ⊢
    rw [hnext.rcx]
    by_cases hlast : v + 1 = IDT_ENTRIES
    · have hzero : BitVec.ofNat 64 (IDT_ENTRIES - (v + 1)) = 0 := by
        rw [hlast]
        rfl
      rw [if_pos hzero, hlast, Nat.sub_self]
      exact ⟨_, rfl, rfl⟩
    · have hmore : BitVec.ofNat 64 (IDT_ENTRIES - (v + 1)) ≠ 0 := by
        unfold IDT_ENTRIES at hv hlast ⊢
        bv_omega
      rw [if_neg hmore]
      exact ih hnext (by omega) (by omega)

/-- The table with the same interrupt gate in every entry. -/
def uniformIdt (a : U64) : List IdtData :=
  (List.range IDT_ENTRIES).map fun v => intg (BitVec.ofNat 16 v) a

theorem vector_intg (a : U64) {v : Nat} (hv : v < IDT_ENTRIES) :
    (intg (BitVec.ofNat 16 v) a).vector.toNat = v := by
  unfold IDT_ENTRIES at hv
  exact Nat.mod_eq_of_lt (by omega)

theorem vector_uniformIdt {a : U64} {d : IdtData} (h : d ∈ uniformIdt a) :
    d.vector.toNat < IDT_ENTRIES := by
  obtain ⟨v, hv, rfl⟩ := List.mem_map.mp h
  rw [List.mem_range] at hv
  rwa [vector_intg a hv]

theorem idtSetupFromTable_uniform (idt a : U64) (m : WordMem) :
    idtSetupFromTable idt (uniformIdt a) m =
      (List.range IDT_ENTRIES).foldl
        (fun m u => writeIdtEntry idt u (idtInitDesc (intg 0 a)) m) m := by
  rw [idtSetupFromTable, uniformIdt, List.foldl_map]
  apply List.foldl_ext
  intro m v hv
  rw [vector_intg a (List.mem_range.mp hv)]
  rfl

/-- `setup_idt` ends, and does what the C code does with a table of interrupt gates. -/
theorem setupIdt_eq (idt ignoreInt : U64) (s : HeadState) :
    ∃ s', setupIdt idt ignoreInt s = some s' ∧
      s'.mem = idtSetupFromTable idt (uniformIdt ignoreInt) s.mem := by
  have start : Filling idt (idtInitDesc (intg 0 ignoreInt)) 0
      (headRun (gateCode ignoreInt ++ fillCode idt) s) := by
    refine ⟨?_, ?_, rfl⟩
    · rw [bytes_intg 0 ignoreInt s]
      rfl
    · exact (behind_zero idt).symm
  obtain ⟨s', hrun, hmem⟩ := fillIdt_fills start (by decide) (Nat.le_refl _)
  refine ⟨s', hrun, ?_⟩
  rw [hmem, idtSetupFromTable_uniform, List.range_eq_range']
  rfl

theorem lastGate_uniformIdt (a : U64) (old : List Byte) {v : Nat} (hv : v < IDT_ENTRIES) :
    lastGate (uniformIdt a) old v = (idtInitDesc (intg 0 a)).bytes := by
  have hmem : intg (BitVec.ofNat 16 v) a ∈ (uniformIdt a).reverse := by
    rw [List.mem_reverse]
    exact List.mem_map_of_mem (List.mem_range.mpr hv)
  unfold lastGate
  cases hfind : lastEntry (uniformIdt a) v with
  | none =>
    -- there is an entry for every vector
    have hnone := List.find?_eq_none.mp hfind _ hmem
    exact absurd (vector_intg a hv) (by simpa using hnone)
  | some d =>
    have hd := List.mem_of_find?_eq_some hfind
    obtain ⟨u, -, rfl⟩ := List.mem_map.mp (List.mem_reverse.mp hd)
    rfl

theorem vector_earlyIdt (dbgEntry : U64) :
    ∀ d ∈ earlyIdt dbgEntry, d.vector.toNat < IDT_ENTRIES := by
  simp [earlyIdt, intg, gateData, IDT_ENTRIES]

/-- After the start of the kernel the debugger has its two vectors, and `ignore_int` the others. -/
theorem boot_idt (idt ignoreInt dbgEntry : U64) (s : HeadState) :
    ∃ s', setupIdt idt ignoreInt s = some s' ∧ ∀ v < IDT_ENTRIES,
      entryBytes (idtSetupEarlyTraps idt dbgEntry s'.mem) idt v =
        (idtInitDesc (intg 0 (if v = 1 ∨ v = 3 then dbgEntry else ignoreInt))).bytes := by
  obtain ⟨s', hrun, hmem⟩ := setupIdt_eq idt ignoreInt s
  refine ⟨s', hrun, fun v hv => ?_⟩
  rw [idtSetupEarlyTraps, entryBytes_idtSetupFromTable idt (vector_earlyIdt dbgEntry) hv, hmem,
    entryBytes_idtSetupFromTable idt (fun _ h => vector_uniformIdt h) hv,
    lastGate_uniformIdt ignoreInt _ hv]
  by_cases hthree : v = 3
  · subst v
    rfl
  by_cases hone : v = 1
  · subst v
    rfl
  · -- no entry of the early table is for `v`
    have hnone : lastEntry (earlyIdt dbgEntry) v = none := by
      apply List.find?_eq_none.mpr
      simp [earlyIdt, intg, gateData, Ne.symm hthree, Ne.symm hone]
    rw [lastGate, hnone, if_neg (not_or.mpr ⟨hone, hthree⟩)]

/-- Each encoder and the table, for every address, every table and every memory. -/
theorem idt_gates_decode :
    (∀ d, (idtInitDesc d).handler = d.addr) ∧
      (∀ vector a s, (idtInitDesc (gateData vector a 0 GATE_INTERRUPT DPL0 0x08)).bytes =
        leBytes 8 ((headRun (gateCode a) s).gpr .rax) ++
          leBytes 8 ((headRun (gateCode a) s).gpr .rdx)) ∧
      ∀ idt table m, (∀ d ∈ table, d.vector.toNat < IDT_ENTRIES) →
        (∀ v < IDT_ENTRIES, entryBytes (idtSetupFromTable idt table m) idt v =
          lastGate table (entryBytes m idt v) v) ∧
          ∀ x, 16 * IDT_ENTRIES ≤ (x - idt).toNat → idtSetupFromTable idt table m x = m x :=
  ⟨handler_idtInitDesc, bytes_intg, fun idt _ m htable =>
    ⟨fun _ hv => entryBytes_idtSetupFromTable idt htable hv m,
      fun _ hx => idtSetupFromTable_outside idt htable m hx⟩⟩

theorem idt_gates_decode_early :
    entryBytes (idtSetupFromTable 0x1000 (earlyIdt 0x2000) fun _ => 0) 0x1000 3 =
      (idtInitDesc (intg 3 0x2000)).bytes :=
  (idt_gates_decode.2.2 0x1000 (earlyIdt 0x2000) (fun _ => 0) (vector_earlyIdt 0x2000)).1 3
    (by decide)

end MidnightOS.Arch
