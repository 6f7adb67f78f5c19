import MidnightOS.Arch.Cpu
import MidnightOS.Debug.Command

/-! # The commands (`debug.c`)

A handler gets the number of its arguments and reads them through `argv`.  Its
output goes through `dbg_msg`.  What `disasm` writes about an instruction is a
parameter: the vendored disassembler sets everything it reads, so its text depends on
the memory and the address alone.
-/

namespace MidnightOS.Debug

open MidnightOS.Lib
open MidnightOS.Arch (U64 IntInfo)

structure DebugRegs where
  dr0 : U64
  dr1 : U64
  dr2 : U64
  dr3 : U64
  dr7 : U64
deriving DecidableEq

/-- The interrupted program: what the handlers only read. -/
structure Machine where
  info : IntInfo
  mem : U64 → Byte

/-- The text of an instruction, in the buffer of 128 bytes, and the address of the next one. -/
structure Disassembled where
  text : CString
  next : U64
  fits : text.chars.length < 128

/-- None where the text does not end or does not fit its buffer. -/
abbrev Disasm := (U64 → Byte) → U64 → Option Disassembled

/-- What a handler changes. -/
structure Session (σ : Type) where
  io : DbgIo σ
  drs : DebugRegs

abbrev HandlerM (σ : Type) := EStateM Fault (Session σ)

/-- The results of a command. -/
inductive Code where
  | success
  | continue
  | step
  | unknownCmd
  | invalidParams
deriving DecidableEq

/-- `argv[i]`, as the rest of the command buffer from there on. -/
abbrev Argv := Nat → Except Fault Chars

variable {σ : Type}

def dbgSay (fmt : String) (args : List Arg) : HandlerM σ Unit := fun s =>
  match dbgMsg (.literal fmt) args s.io with
  | .ok _ io => .ok () { s with io }
  | .error e io => .error e { s with io }

def fetch {α : Type} (value : Except Fault α) : HandlerM σ α :=
  match value with
  | .ok a => pure a
  | .error e => throw e

/-- `argv[i]` for a `%s`. -/
def argString (argv : Argv) (i : Nat) : HandlerM σ CString :=
  fetch do
    let str ← argv i
    if str.any (· = 0) then .ok (.startOf str) else .error .read

/-- `dbg_strcmp(argv[i], name) == 0` -/
def argIs (argv : Argv) (i : Nat) (name : CString) : HandlerM σ Bool :=
  fetch do
    let str ← argv i
    let order ← dbgStrcmp str name.object
    .ok (order = 0)

/-- `dbg_atol(argv[i])` -/
def argAtol (argv : Argv) (i : Nat) : HandlerM σ U64 :=
  fetch do
    let str ← argv i
    dbgAtol str

/-- `DBG_REGS_ARRAY` -/
def regsArray (info : IntInfo) : List (CString × U64) :=
  [(.literal "rax", info.regs.rax), (.literal "rbx", info.regs.rbx),
    (.literal "rcx", info.regs.rcx), (.literal "rdx", info.regs.rdx),
    (.literal "rsi", info.regs.rsi), (.literal "rdi", info.regs.rdi),
    (.literal "rsp", info.frame.rsp), (.literal "rbp", info.regs.rbp),
    (.literal "r8", info.regs.r8), (.literal "r9", info.regs.r9),
    (.literal "r10", info.regs.r10), (.literal "r11", info.regs.r11),
    (.literal "r12", info.regs.r12), (.literal "r13", info.regs.r13),
    (.literal "r14", info.regs.r14), (.literal "r15", info.regs.r15),
    (.literal "rip", info.frame.rip), (.literal "cs", info.frame.cs),
    (.literal "ss", info.frame.ss), (.literal "rflags", info.frame.rflags)]

/-- The value of the first register that `argv[0]` names. -/
def findReg (argv : Argv) : List (CString × U64) → HandlerM σ (Option U64)
  | [] => pure none
  | (name, value) :: regs => do
    if ← argIs argv 0 name then pure (some value) else findReg argv regs

abbrev Handler (σ : Type) := (argc : Nat) → Argv → HandlerM σ Code

def dbgDoCntn : Handler σ := fun _ _ => pure .continue

def dbgDoStep : Handler σ := fun _ _ => pure .step

/-- Print the registers, `count` in all, from the one numbered `i` on. -/
def printRegs (count : Nat) : (i : Nat) → List (CString × U64) → HandlerM σ Unit
  | _, [] => pure ()
  | i, (name, value) :: regs => do
    dbgSay "%s: 0x%lx " [.string name, .long value]
    if (i + 1) % 4 = 0 ∨ i = count - 1 then
      dbgSay "\n" []
    printRegs count (i + 1) regs

def dbgDoReg (info : IntInfo) : Handler σ := fun argc argv =>
  if argc = 0 then do
    printRegs (regsArray info).length 0 (regsArray info)
    pure .success
  else if argc = 1 then do
    match ← findReg argv (regsArray info) with
    | some value =>
      dbgSay "0x%lx\n" [.long value]
      pure .success
    | none =>
      let name ← argString argv 0
      dbgSay "Unknown register %s\n" [.string name]
      pure .invalidParams
  else
    pure .invalidParams

/-- The registers that hold the address of a breakpoint. -/
inductive BreakReg where
  | dr0
  | dr1
  | dr2
  | dr3
deriving DecidableEq

def BreakReg.index : BreakReg → Nat
  | .dr0 => 0
  | .dr1 => 1
  | .dr2 => 2
  | .dr3 => 3

/-- The register that `argv[1]` names. -/
def breakReg (argv : Argv) : HandlerM σ (Option BreakReg) := do
  if ← argIs argv 1 (.literal "dr0") then pure (some .dr0)
  else if ← argIs argv 1 (.literal "dr1") then pure (some .dr1)
  else if ← argIs argv 1 (.literal "dr2") then pure (some .dr2)
  else if ← argIs argv 1 (.literal "dr3") then pure (some .dr3)
  else pure none

/-- `DBG_ACCESS_NONE`, `DBG_ACCESS_EX`, `DBG_ACCESS_MA` -/
inductive Access where
  | none
  | ex
  | ma
deriving DecidableEq

def breakAccess (argv : Argv) : HandlerM σ (Option Access) := do
  if ← argIs argv 2 (.literal "0") then pure (some .none)
  else if ← argIs argv 2 (.literal "ex") then pure (some .ex)
  else if ← argIs argv 2 (.literal "ma") then pure (some .ma)
  else pure Option.none

def DebugRegs.setAddress (drs : DebugRegs) (reg : BreakReg) (bp : U64) : DebugRegs :=
  match reg with
  | .dr0 => { drs with dr0 := bp }
  | .dr1 => { drs with dr1 := bp }
  | .dr2 => { drs with dr2 := bp }
  | .dr3 => { drs with dr3 := bp }

/-- What `hbp` writes to the debug registers. -/
def DebugRegs.setBreak (drs : DebugRegs) (reg : BreakReg) (access : Access) (bp : U64) : DebugRegs :=
  let enableBit := reg.index * 2 + 1
  let typeBit := 16 + reg.index * 4
  if access = .none ∧ bp = 0 then
    { drs with
      dr7 := drs.dr7 &&& ~~~((1#64 <<< (enableBit - 1)) ||| (1#64 <<< enableBit) |||
        (3#64 <<< typeBit) ||| (3#64 <<< (typeBit + 2))) }
  else
    let dr7 := drs.dr7 ||| (1#64 <<< enableBit)
    let dr7 := dr7 &&& ~~~(3#64 <<< typeBit)
    let dr7 := dr7 &&& ~~~(3#64 <<< (typeBit + 2))
    let dr7 := if access = .ma then dr7 ||| (3#64 <<< typeBit) else dr7
    { drs.setAddress reg bp with dr7 }

def dbgDoHardwareBp : Handler σ := fun argc argv =>
  if argc ≠ 3 then
    pure .invalidParams
  else do
    let bp ← argAtol argv 0
    match ← breakReg argv with
    | none =>
      let name ← argString argv 1
      dbgSay "Invalid register %s\n" [.string name]
      pure .invalidParams
    | some reg =>
      match ← breakAccess argv with
      | none => pure .invalidParams
      | some access =>
        modify fun s => { s with drs := s.drs.setBreak reg access bp }
        pure .success

/-- The loop of `x` over the `n` bytes up to `limit`, with `c` bytes on the line so far. -/
def dumpLoop (mem : U64 → Byte) : (n : Nat) → (base : U64) → (c : Nat) → HandlerM σ Unit
  | 0, _, _ => pure ()
  | n + 1, base, c => do
    dbgSay "0x%b " [.int ((mem base).setWidth 32)]
    let base := base + 1
    let c := c + 1
    if c = 8 then
      dbgSay " " []
    -- `base < limit`: this was not the last byte
    if c = 16 ∧ 0 < n then
      dbgSay "\n0x%lx: " [.long base]
      dumpLoop mem n base 0
    else
      dumpLoop mem n base c

/-- The address that `argv[0]` gives: a register that is not zero, or else a number. -/
def argBase (info : IntInfo) (argv : Argv) : HandlerM σ U64 := do
  let found ← findReg argv (regsArray info)
  let base := found.getD 0
  if base = 0 then argAtol argv 0 else pure base

/-- There is no check of `argc`. -/
def dbgDoDumphex (m : Machine) : Handler σ := fun _ argv => do
  let base ← argBase m.info argv
  if base = 0 then
    pure .invalidParams
  else
    let size ← argAtol argv 1
    let limit := base + size
    dbgSay "0x%lx: " [.long base]
    dumpLoop m.mem (limit.toNat - base.toNat) base 0
    dbgSay "\n" []
    pure .success

def disasmLoop (disasm : Disasm) (mem : U64 → Byte) : (n : Nat) → (base : U64) → HandlerM σ Unit
  | 0, _ => pure ()
  | n + 1, base =>
    match disasm mem base with
    | none => throw .store
    | some inst => do
      dbgSay "0x%lx: %s\n" [.long base, .string inst.text]
      disasmLoop disasm mem n inst.next

def dbgDoDisassembly (disasm : Disasm) (m : Machine) : Handler σ := fun argc argv =>
  if argc ≠ 2 then
    pure .invalidParams
  else do
    let base ← argBase m.info argv
    if base = 0 then
      pure .invalidParams
    else
      let count ← argAtol argv 1
      let instCount : BitVec 32 := count.setWidth 32
      if instCount = 0 then
        pure .invalidParams
      else
        disasmLoop disasm m.mem instCount.toInt.toNat base
        pure .success

def dbgDoHelp : Handler σ := fun _ _ => do
  dbgSay "c -=- continue execution\n" []
  dbgSay "s -=- single step instructions\n" []
  dbgSay "reg [register] -=- print contents of a register\n" []
  dbgSay "hbp [addr] [reg] [cond] -=- set a hardware breakpoint\n" []
  dbgSay "x [addr] [count] -=- print [count] bytes at [addr]\n" []
  dbgSay "disasm [addr] [count] -=- disassemble [count] instructions at [addr]\n" []
  dbgSay "help -=- print this message\n" []
  pure .success

/-- `cmd_table` -/
def cmdTable (disasm : Disasm) (m : Machine) : List (CString × Handler σ) :=
  [(.literal "c", dbgDoCntn), (.literal "s", dbgDoStep), (.literal "reg", dbgDoReg m.info),
    (.literal "hbp", dbgDoHardwareBp), (.literal "x", dbgDoDumphex m),
    (.literal "disasm", dbgDoDisassembly disasm m), (.literal "help", dbgDoHelp)]

def execTable (argc : Nat) (argv : Argv) : List (CString × Handler σ) → HandlerM σ Code
  | [] => pure .unknownCmd
  | (name, handler) :: table => do
    if ← argIs argv 0 name then
      handler (argc - 1) fun i => argv (i + 1)
    else
      execTable argc argv table

def dbgExec (disasm : Disasm) (m : Machine) (argc : Nat) (argv : Argv) : HandlerM σ Code :=
  if argc = 0 then pure .unknownCmd else execTable argc argv (cmdTable disasm m)

end MidnightOS.Debug
