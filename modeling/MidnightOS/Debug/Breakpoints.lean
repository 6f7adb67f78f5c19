import MidnightOS.Debug.SameEffect
import MidnightOS.Lib.BitFields

/-! # Breakpoint slots

The four breakpoints share one register, `dr7`.  What `hbp` writes there concerns the slot
that it names and no other, so the last command for a slot decides.
-/

namespace MidnightOS.Debug

open MidnightOS.Lib
open MidnightOS.Arch (U64)

/-! ## Slots -/

/-- What the debug registers say about one breakpoint. -/
structure Slot where
  address : U64
  localEnable : Bool
  globalEnable : Bool
  rw : BitVec 2
  len : BitVec 2

def DebugRegs.address (drs : DebugRegs) : BreakReg → U64
  | .dr0 => drs.dr0
  | .dr1 => drs.dr1
  | .dr2 => drs.dr2
  | .dr3 => drs.dr3

def DebugRegs.slot (drs : DebugRegs) (reg : BreakReg) : Slot where
  address := drs.address reg
  localEnable := drs.dr7.getLsbD (reg.index * 2)
  globalEnable := drs.dr7.getLsbD (reg.index * 2 + 1)
  rw := drs.dr7.extractLsb' (16 + reg.index * 4) 2
  len := drs.dr7.extractLsb' (18 + reg.index * 4) 2

/-- Bits of `dr7` in the fields of a slot. -/
def InSlot (reg : BreakReg) (i : Nat) : Prop :=
  reg.index * 2 ≤ i ∧ i < reg.index * 2 + 2 ∨ 16 + reg.index * 4 ≤ i ∧ i < 16 + reg.index * 4 + 4

instance decidableInSlot (reg : BreakReg) (i : Nat) : Decidable (InSlot reg i) :=
  inferInstanceAs (Decidable (_ ∨ _))

section SetBreak

variable {drs : DebugRegs} {reg other : BreakReg} {access : Access} {bp : U64} {i : Nat}

theorem BreakReg.index_lt (reg : BreakReg) : reg.index < 4 := by
  cases reg with
  | dr0 => decide
  | dr1 => decide
  | dr2 => decide
  | dr3 => decide

theorem BreakReg.index_ne (h : reg ≠ other) : reg.index ≠ other.index := by
  intro same
  apply h
  cases reg <;> cases other <;> first | rfl | cases same

theorem one_bit (k : Nat) (hi : i < 64) :
    (1#64 <<< k).getLsbD i = (decide (k ≤ i) && decide (i < k + 1)) := getLsbD_ones 1 k hi

theorem two_bits (k : Nat) (hi : i < 64) :
    (3#64 <<< k).getLsbD i = (decide (k ≤ i) && decide (i < k + 2)) := getLsbD_ones 2 k hi

/-- `dr7` where the slot is cleared: its bits are zero. -/
theorem clearBreak_bit (hclear : access = .none ∧ bp = 0) (hi : i < 64) :
    (drs.setBreak reg access bp).dr7.getLsbD i =
      (drs.dr7.getLsbD i && !decide (InSlot reg i)) := by
  simp only [DebugRegs.setBreak, if_pos hclear, BitVec.getLsbD_and, BitVec.getLsbD_not,
    BitVec.getLsbD_or, one_bit _ hi, two_bits _ hi, hi]
  congr 1
  rw [Bool.eq_iff_iff]
  simp only [decide_true, Bool.true_and, Bool.not_eq_true', Bool.or_eq_false_iff,
    Bool.and_eq_false_iff, decide_eq_false_iff_not]
  rw [InSlot]
  omega

/-- `dr7` where the slot is set: globally enabled, its kind as given, its length zero. -/
theorem setBreak_bit (hset : ¬(access = .none ∧ bp = 0)) (hi : i < 64) :
    (drs.setBreak reg access bp).dr7.getLsbD i =
      if i = reg.index * 2 + 1 then true
      else if 16 + reg.index * 4 ≤ i ∧ i < 16 + reg.index * 4 + 4 then
        decide (access = .ma ∧ i < 16 + reg.index * 4 + 2)
      else drs.dr7.getLsbD i := by
  have few := reg.index_lt
  -- the masks as the ranges of bits that they cover
  have bits : (drs.setBreak reg access bp).dr7.getLsbD i =
      ((drs.dr7.getLsbD i || (decide (reg.index * 2 + 1 ≤ i) && decide (i < reg.index * 2 + 1 + 1))) &&
        !(decide (16 + reg.index * 4 ≤ i) && decide (i < 16 + reg.index * 4 + 2)) &&
        !(decide (16 + reg.index * 4 + 2 ≤ i) && decide (i < 16 + reg.index * 4 + 2 + 2)) ||
        (decide (access = .ma) && (decide (16 + reg.index * 4 ≤ i) &&
          decide (i < 16 + reg.index * 4 + 2)))) := by
    by_cases memory : access = .ma
    · simp only [DebugRegs.setBreak, if_neg hset, if_pos memory, BitVec.getLsbD_or,
        BitVec.getLsbD_and, BitVec.getLsbD_not, one_bit _ hi, two_bits _ hi, hi, decide_true,
        Bool.true_and]
      simp [memory]
    · simp only [DebugRegs.setBreak, if_neg hset, if_neg memory, BitVec.getLsbD_or,
        BitVec.getLsbD_and, BitVec.getLsbD_not, one_bit _ hi, two_bits _ hi, hi, decide_true,
        Bool.true_and]
      simp [memory]
  rw [bits]
  by_cases atEnable : i = reg.index * 2 + 1
  · -- the enable bits are below the fields, which start at bit 16
    rw [if_pos atEnable]
    have low : i < 16 := by omega
    have before : ¬16 + reg.index * 4 ≤ i := by omega
    have before' : ¬16 + reg.index * 4 + 2 ≤ i := by omega
    simp [before, before', ← atEnable]
  · -- outside the enable bit the field decides
    have notEnable : ¬(reg.index * 2 + 1 ≤ i ∧ i < reg.index * 2 + 1 + 1) := by omega
    rw [if_neg atEnable]
    by_cases inField : 16 + reg.index * 4 ≤ i ∧ i < 16 + reg.index * 4 + 4
    · rw [if_pos inField]
      by_cases inKind : i < 16 + reg.index * 4 + 2
      · simp [inField.1, inKind]
      · have inLen : 16 + reg.index * 4 + 2 ≤ i := by omega
        simp [inKind, inLen, inField.2]
    · rw [if_neg inField]
      have notKind : ¬(16 + reg.index * 4 ≤ i ∧ i < 16 + reg.index * 4 + 2) := by omega
      have notLen : ¬(16 + reg.index * 4 + 2 ≤ i ∧ i < 16 + reg.index * 4 + 2 + 2) := by omega
      rw [← Bool.decide_and, ← Bool.decide_and, ← Bool.decide_and, decide_eq_false notEnable,
        decide_eq_false notKind, decide_eq_false notLen]
      simp

theorem setBreak_outside (outside : ¬InSlot reg i) (hi : i < 64) :
    (drs.setBreak reg access bp).dr7.getLsbD i = drs.dr7.getLsbD i := by
  by_cases hclear : access = .none ∧ bp = 0
  · simp [clearBreak_bit hclear hi, outside]
  · rw [InSlot] at outside
    rw [setBreak_bit hclear hi, if_neg (by omega), if_neg (by omega)]

theorem setBreak_address (drs : DebugRegs) (reg : BreakReg) (access : Access) (bp : U64) :
    (drs.setBreak reg access bp).address reg =
      if access = .none ∧ bp = 0 then drs.address reg else bp := by
  rw [DebugRegs.setBreak]
  by_cases hclear : access = .none ∧ bp = 0
  · rw [if_pos hclear, if_pos hclear]
    cases reg <;> rfl
  · rw [if_neg hclear, if_neg hclear]
    cases reg <;> rfl

theorem setBreak_address_other (h : reg ≠ other) :
    (drs.setBreak reg access bp).address other = drs.address other := by
  rw [DebugRegs.setBreak]
  by_cases hclear : access = .none ∧ bp = 0
  · rw [if_pos hclear]
    cases other <;> rfl
  · rw [if_neg hclear]
    cases reg <;> cases other <;> first | rfl | exact absurd rfl h

/-- Two bits of `dr7` as a field. -/
theorem field_eq {dr7 dr7' : U64} {lo : Nat}
    (h : ∀ i, lo ≤ i → i < lo + 2 → dr7.getLsbD i = dr7'.getLsbD i) :
    dr7.extractLsb' lo 2 = dr7'.extractLsb' lo 2 := by
  apply BitVec.eq_of_getLsbD_eq
  intro i hi
  rw [BitVec.getLsbD_extractLsb', BitVec.getLsbD_extractLsb', h _ (by omega) (by omega)]

/-- The other slots are left alone. -/
theorem slot_setBreak_other (h : reg ≠ other) :
    (drs.setBreak reg access bp).slot other = drs.slot other := by
  have few := other.index_lt
  have few' := reg.index_lt
  have apart := BreakReg.index_ne h
  have same : ∀ i, InSlot other i →
      (drs.setBreak reg access bp).dr7.getLsbD i = drs.dr7.getLsbD i := by
    intro i inside
    rw [InSlot] at inside
    refine setBreak_outside ?_ (by omega)
    rw [InSlot]
    omega
  rw [DebugRegs.slot, DebugRegs.slot, setBreak_address_other h, same _ (by rw [InSlot]; omega),
    same _ (by rw [InSlot]; omega)]
  congr 1
  · exact field_eq fun i lo hi => same i (by rw [InSlot]; omega)
  · exact field_eq fun i lo hi => same i (by rw [InSlot]; omega)

/-! ## Commands -/

/-- An `hbp` command that is accepted. -/
structure BreakCommand where
  address : U64
  reg : BreakReg
  access : Access
deriving DecidableEq

/-- The command that the arguments of `hbp` make, if they are accepted. -/
def commandOf : List (List Byte) → Option BreakCommand
  | [address, name, kind] =>
    (breakRegOf name).bind fun reg =>
      (breakAccessOf kind).map fun access => ⟨numberOf address, reg, access⟩
  | _ => none

theorem commandOf_of_length {ws : List (List Byte)} (h : ¬ws.length = 3) :
    commandOf ws = none := by
  unfold commandOf
  split
  · exact absurd rfl h
  · rfl

/-- The state of a slot after a command for it, or after none. -/
def SlotAsSet (before after : Slot) : Option BreakCommand → Prop
  | none => after = before
  | some ⟨_, _, .none⟩ => after.globalEnable = false ∧ after.localEnable = false
  | some ⟨address, _, .ex⟩ =>
    after.address = address ∧ after.globalEnable = true ∧ after.rw = 0b00 ∧ after.len = 0b00
  | some ⟨address, _, .ma⟩ =>
    after.address = address ∧ after.globalEnable = true ∧ after.rw = 0b11 ∧ after.len = 0b00

theorem slot_globalEnable (drs : DebugRegs) (reg : BreakReg) (hset : ¬(access = .none ∧ bp = 0)) :
    ((drs.setBreak reg access bp).slot reg).globalEnable = true := by
  have few := reg.index_lt
  change (drs.setBreak reg access bp).dr7.getLsbD (reg.index * 2 + 1) = true
  rw [setBreak_bit hset (by omega), if_pos rfl]

theorem slot_rw (drs : DebugRegs) (reg : BreakReg) (hset : ¬(access = .none ∧ bp = 0)) :
    ((drs.setBreak reg access bp).slot reg).rw = if access = .ma then 0b11 else 0b00 := by
  have few := reg.index_lt
  apply BitVec.eq_of_getLsbD_eq
  intro i hi
  have bits : (if access = .ma then 0b11 else 0b00 : BitVec 2).getLsbD i = decide (access = .ma) := by
    by_cases memory : access = .ma
    · rw [if_pos memory, decide_eq_true memory]
      -- both bits of the field are ones
      obtain rfl | rfl : i = 0 ∨ i = 1 := by omega
      all_goals rfl
    · rw [if_neg memory, decide_eq_false memory, BitVec.ofNat_eq_ofNat, BitVec.getLsbD_zero]
  rw [bits, DebugRegs.slot, BitVec.getLsbD_extractLsb', setBreak_bit hset (by omega),
    if_neg (by omega), if_pos (by omega)]
  simp [hi]

theorem slot_len (drs : DebugRegs) (reg : BreakReg) (hset : ¬(access = .none ∧ bp = 0)) :
    ((drs.setBreak reg access bp).slot reg).len = 0b00 := by
  have few := reg.index_lt
  apply BitVec.eq_of_getLsbD_eq
  intro i hi
  have outside : ¬(access = .ma ∧ 18 + reg.index * 4 + i < 16 + reg.index * 4 + 2) := by omega
  rw [DebugRegs.slot, BitVec.getLsbD_extractLsb', setBreak_bit hset (by omega),
    if_neg (by omega), if_pos (by omega), decide_eq_false outside]
  simp

/-- A command leaves its slot as it should unless it is of type 0 and has an address. -/
theorem slot_setBreak (before : Slot) (drs : DebugRegs) (c : BreakCommand) :
    SlotAsSet before ((drs.setBreak c.reg c.access c.address).slot c.reg) (some c) ↔
      (c.access = .none → c.address = 0) := by
  obtain ⟨bp, reg, access⟩ := c
  have few := reg.index_lt
  have address := setBreak_address drs reg access bp
  cases access with
  | none =>
    simp only [SlotAsSet, forall_const]
    by_cases zero : bp = 0
    · have hclear : Access.none = Access.none ∧ bp = 0 := ⟨rfl, zero⟩
      simp only [DebugRegs.slot]
      rw [clearBreak_bit hclear (by omega), clearBreak_bit hclear (by omega)]
      have first : InSlot reg (reg.index * 2) := by rw [InSlot]; omega
      have second : InSlot reg (reg.index * 2 + 1) := by rw [InSlot]; omega
      simp [first, second, zero]
    · -- this sets a breakpoint on execution
      have hset : ¬(Access.none = Access.none ∧ bp = 0) := fun h => zero h.2
      have enabled := slot_globalEnable drs reg hset
      simpa [enabled] using zero
  | ex =>
    have hset : ¬(Access.ex = Access.none ∧ bp = 0) := fun h => by cases h.1
    rw [if_neg hset] at address
    have kind := slot_rw drs reg hset
    exact ⟨fun _ h => (by cases h), fun _ => ⟨address, slot_globalEnable drs reg hset, kind,
      slot_len drs reg hset⟩⟩
  | ma =>
    have hset : ¬(Access.ma = Access.none ∧ bp = 0) := fun h => by cases h.1
    rw [if_neg hset] at address
    have kind := slot_rw drs reg hset
    exact ⟨fun _ h => (by cases h), fun _ => ⟨address, slot_globalEnable drs reg hset, kind,
      slot_len drs reg hset⟩⟩

end SetBreak

/-! ## Sequences of commands -/

/-- The debug registers after some commands. -/
def DebugRegs.applyAll (drs : DebugRegs) (cmds : List BreakCommand) : DebugRegs :=
  cmds.foldl (fun drs c => drs.setBreak c.reg c.access c.address) drs

/-- The last command that names a slot. -/
def lastNaming (reg : BreakReg) (cmds : List BreakCommand) : Option BreakCommand :=
  (cmds.filter fun c => c.reg = reg).getLast?

/-- The slots are in the state set by the last commands naming them, and the bits of `dr7` that
belong to no slot are as they were. -/
structure BookKept (before after : DebugRegs) (cmds : List BreakCommand) : Prop where
  slots : ∀ reg, SlotAsSet (before.slot reg) (after.slot reg) (lastNaming reg cmds)
  reserved : ∀ i, 8 ≤ i ∧ i < 16 ∨ 32 ≤ i → after.dr7.getLsbD i = before.dr7.getLsbD i

theorem lastNaming_snoc (reg : BreakReg) (cmds : List BreakCommand) (c : BreakCommand) :
    lastNaming reg (cmds ++ [c]) = if c.reg = reg then some c else lastNaming reg cmds := by
  rw [lastNaming, List.filter_append]
  by_cases named : c.reg = reg
  · simp [named]
  · simp [named, lastNaming]

theorem slot_applyAll (drs : DebugRegs) (cmds : List BreakCommand) (reg : BreakReg) :
    SlotAsSet (drs.slot reg) ((drs.applyAll cmds).slot reg) (lastNaming reg cmds) ↔
      ∀ c ∈ lastNaming reg cmds, c.access = .none → c.address = 0 := by
  -- from the last command on: it is the last one for its slot
  induction cmds using List.reverseRecOn with
  | nil => exact ⟨fun _ c hc => (by cases hc), fun _ => rfl⟩
  | append_singleton cmds c ih =>
    have last : drs.applyAll (cmds ++ [c]) =
        (drs.applyAll cmds).setBreak c.reg c.access c.address := by
      simp [DebugRegs.applyAll]
    rw [last, lastNaming_snoc]
    by_cases named : c.reg = reg
    · subst named
      rw [if_pos rfl, slot_setBreak]
      simp
    · rw [if_neg named, slot_setBreak_other named]
      exact ih

theorem reserved_applyAll (drs : DebugRegs) (cmds : List BreakCommand) {i : Nat}
    (hi : 8 ≤ i ∧ i < 16 ∨ 32 ≤ i) : (drs.applyAll cmds).dr7.getLsbD i = drs.dr7.getLsbD i := by
  induction cmds generalizing drs with
  | nil => rfl
  | cons c cmds ih =>
    have rest := ih (drs.setBreak c.reg c.access c.address)
    refine rest.trans ?_
    by_cases inside : i < 64
    · have few := c.reg.index_lt
      -- no slot has a field in these bits
      refine setBreak_outside ?_ inside
      rw [InSlot]
      omega
    · rw [BitVec.getLsbD_of_ge _ _ (by omega), BitVec.getLsbD_of_ge _ _ (by omega)]

section Run

variable {σ : Type}

/-- What `hbp` does with its arguments. -/
theorem hardwareBp_spec {argv : Argv} {ws : List (List Byte)} (h : Reads argv ws) (s : Session σ) :
    wp (dbgDoHardwareBp ws.length argv)
      (fun code s' => match commandOf ws with
        | some c => code = .success ∧ s'.drs = s.drs.setBreak c.reg c.access c.address
        | none => code = .invalidParams ∧ s'.drs = s.drs)
      (fun _ _ => True) s := by
  unfold dbgDoHardwareBp
  by_cases three : ws.length = 3
  · -- the order of the source: address, then register, then type
    obtain ⟨address, name, kind, rfl⟩ := List.length_eq_three.mp three
    have first : [address, name, kind][0]? = some address := rfl
    have second : [address, name, kind][1]? = some name := rfl
    have third : [address, name, kind][2]? = some kind := rfl
    rw [if_neg (not_not_intro three), argAtol_eq h first, breakReg_eq h second]
    simp only [pure_bind, commandOf]
    cases breakRegOf name with
    | none =>
      obtain ⟨word, string⟩ := argString_eq (σ := σ) h second
      simp only [string, pure_bind, Option.bind_none, wp_bind, wp_pure, true_and]
      unfold wp dbgSay
      cases dbgMsg (.literal "Invalid register %s\n") [.string ⟨name, word⟩] s.io with
      | ok n io => rfl
      | error e io => trivial
    | some reg =>
      rw [Option.bind_some]
      simp only [breakAccess_eq h third, pure_bind]
      cases breakAccessOf kind with
      | none => exact ⟨rfl, rfl⟩
      | some access => exact ⟨rfl, rfl⟩
  · rw [if_pos three, commandOf_of_length three]
    exact ⟨rfl, rfl⟩

/-- `hbp` is called with these arguments, one call after another, and returns each time. -/
inductive HbpRun : List (List (List Byte)) → Session σ → Session σ → Prop where
  | nil (s : Session σ) : HbpRun [] s s
  | cons {ws : List (List Byte)} {rest : List (List (List Byte))} {argv : Argv} {code : Code}
      {s t u : Session σ} (reads : Reads argv ws)
      (run : dbgDoHardwareBp ws.length argv s = .ok code t) (later : HbpRun rest t u) :
      HbpRun (ws :: rest) s u

theorem HbpRun.drs_eq {calls : List (List (List Byte))} {s t : Session σ} (h : HbpRun calls s t) :
    t.drs = s.drs.applyAll (calls.filterMap commandOf) := by
  induction h with
  | nil s => rfl
  | @cons ws rest argv code s t u reads run later ih =>
    have step := wp_ok (hardwareBp_spec reads s) run
    rw [ih]
    cases accepted : commandOf ws with
    | none =>
      simp only [accepted] at step
      rw [List.filterMap_cons_none accepted, step.2]
    | some c =>
      simp only [accepted] at step
      rw [List.filterMap_cons_some accepted, step.2]
      rfl

/-- After any sequence of `hbp` commands the book is kept exactly if for no slot the last accepted
command is of type 0 with an address that is not.  A rejected command changes nothing. -/
theorem book_kept_iff {calls : List (List (List Byte))} {s t : Session σ} (run : HbpRun calls s t) :
    (BookKept s.drs t.drs (calls.filterMap commandOf) ↔
      ∀ reg, ∀ c ∈ lastNaming reg (calls.filterMap commandOf), c.access = .none → c.address = 0) ∧
    ∀ {ws argv code} {u v : Session σ}, Reads argv ws →
      dbgDoHardwareBp ws.length argv u = .ok code v →
      (commandOf ws = none ↔ code = .invalidParams) ∧ (code = .invalidParams → v.drs = u.drs) := by
  have after := run.drs_eq
  refine ⟨⟨fun kept reg => ?_, fun cleared => ⟨fun reg => ?_, fun i hi => ?_⟩⟩, ?_⟩
  · -- the slots of a book that is kept show which commands there were
    have slot := kept.slots reg
    rw [after] at slot
    exact (slot_applyAll _ _ reg).mp slot
  · rw [after]
    exact (slot_applyAll _ _ reg).mpr (cleared reg)
  · rw [after]
    exact reserved_applyAll _ _ hi
  · intro ws argv code u v reads call
    -- a command is accepted or changes nothing
    have step := wp_ok (hardwareBp_spec reads u) call
    cases accepted : commandOf ws with
    | none =>
      simp only [accepted] at step
      simp [step]
    | some c =>
      simp only [accepted] at step
      simp [step]

end Run

/-! ## Type 0 with an address -/

/-- Arguments, each a string of its own. -/
def argvOfWords (ws : List (List Byte)) : Argv := fun i =>
  match ws[i]? with
  | some word => .ok (word ++ [0])
  | none => .error .null

theorem reads_argvOfWords {ws : List (List Byte)} (hnul : ∀ word ∈ ws, 0 ∉ word) :
    Reads (argvOfWords ws) ws := by
  intro i word hi
  have noNul := hnul word (List.mem_of_getElem? hi)
  exact ⟨word ++ [0], by rw [argvOfWords, hi], by simp, textOf_append_nul noNul⟩

/-- The session of a debugger that has sent nothing. -/
def freshSession : Session Unit := ⟨⟨fun _ => none, fun _ _ => 0, []⟩, ⟨0, 0, 0, 0, 0x400⟩⟩

def typeZero : List (List Byte) := ["0x1000", "dr0", "0"].map fun s => (CString.literal s).chars

theorem type_zero_enables :
    ∃ t : Session Unit, HbpRun [typeZero] freshSession t ∧
      ¬BookKept freshSession.drs t.drs ([typeZero].filterMap commandOf) := by
  have reads : Reads (argvOfWords typeZero) typeZero := reads_argvOfWords (by decide)
  have run := eq_ok_of_resultOf (x := dbgDoHardwareBp 3 (argvOfWords typeZero))
    (s := freshSession) (a := .success) (by decide +kernel)
  refine ⟨_, .cons reads run (.nil _), fun kept => ?_⟩
  have last : lastNaming .dr0 ([typeZero].filterMap commandOf) = some ⟨0x1000, .dr0, .none⟩ := by
    decide +kernel
  have slot := kept.slots .dr0
  rw [last] at slot
  exact absurd slot.1 (by decide +kernel)

def watchpoint : List (List Byte) := ["0x1000", "dr1", "ma"].map fun s => (CString.literal s).chars

theorem book_kept_iff_watchpoint :
    ∃ t : Session Unit, HbpRun [watchpoint] freshSession t ∧
      BookKept freshSession.drs t.drs ([watchpoint].filterMap commandOf) := by
  have reads : Reads (argvOfWords watchpoint) watchpoint := reads_argvOfWords (by decide)
  have run := eq_ok_of_resultOf (x := dbgDoHardwareBp 3 (argvOfWords watchpoint))
    (s := freshSession) (a := .success) (by decide +kernel)
  have all : HbpRun [watchpoint] freshSession _ := .cons reads run (.nil _)
  refine ⟨_, all, (book_kept_iff all).1.mpr fun reg c hc type => ?_⟩
  have commands : [watchpoint].filterMap commandOf = [⟨0x1000, .dr1, .ma⟩] := by decide +kernel
  rw [commands] at hc
  have named := List.mem_of_mem_filter (List.mem_of_getLast? hc)
  rw [List.mem_singleton] at named
  rw [named] at type
  cases type

end MidnightOS.Debug
