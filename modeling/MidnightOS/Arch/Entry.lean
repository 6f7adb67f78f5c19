import MidnightOS.Arch.Cpu
import MidnightOS.Lib.StackMemory
import Mathlib.Data.List.Nodup
import Mathlib.Logic.Function.Basic

/-! # Interrupt entry (`asm/entry_common.asm`, `debug/entry.asm`)

The code of `ENTRY` in 64-bit mode, instruction by instruction, on the registers, the
flags and the memory.  An interrupt finds the interrupted program in the hardware
frame and leaves it through `iret`.
-/

namespace MidnightOS.Arch

open MidnightOS.Lib

inductive Reg where
  | rax
  | rbx
  | rcx
  | rdx
  | rsi
  | rdi
  | r8
  | r9
  | r10
  | r11
  | r12
  | r13
  | r14
  | r15
  | rbp
  | rsp
deriving DecidableEq

structure Cpu where
  gpr : Reg → U64
  rflags : U64
  mem : WordMem

structure Program where
  gpr : Reg → U64
  rip : U64
  cs : BitVec 16
  rflags : U64
  ss : BitVec 16

inductive AluOp where
  | and
  | sub
  | add

inductive OperandSize where
  | dword
  | qword

/-- The instructions of the entry code.  An immediate is already sign-extended. -/
inductive Instr where
  | pushImm (imm : U64)
  | push (r : Reg)
  | pop (r : Reg)
  | mov (dst src : Reg)
  | alu (op : AluOp) (dst : Reg) (imm : U64)
  | call

/-- `#GP` and `#SS` -/
inductive Exception where
  | gp
  | ss
deriving DecidableEq

/-- What the code does not determine: the status flags, the address behind the `call`, which
selectors the descriptor tables let `iret` load, and which flags it may change. -/
structure Platform where
  aluFlags : AluOp → (dst src flags : U64) → U64
  returnAddress : U64
  codeSegment : BitVec 16 → Bool
  stackSegment : BitVec 16 → Bool
  loadFlags : OperandSize → (popped flags : U64) → U64

def AluOp.result : AluOp → (dst src : U64) → U64
  | .and, dst, src => dst &&& src
  | .sub, dst, src => dst - src
  | .add, dst, src => dst + src

def Cpu.set (s : Cpu) (r : Reg) (v : U64) : Cpu := { s with gpr := Function.update s.gpr r v }

def Cpu.pushWord (s : Cpu) (w : U64) : Cpu :=
  { s.set .rsp (s.gpr .rsp - 8) with mem := storeAt s.mem (s.gpr .rsp - 8) w }

/-- One instruction.  What `call` runs is given as the state after the callee's `ret`. -/
def exec (platform : Platform) (callee : Cpu → Cpu) (s : Cpu) : Instr → Cpu
  | .pushImm imm => s.pushWord imm
  | .push r => s.pushWord (s.gpr r)
  -- a popped `rsp` is the word itself, not the word's end
  | .pop r => (s.set .rsp (s.gpr .rsp + 8)).set r (loadAt s.mem 8 (s.gpr .rsp))
  | .mov dst src => s.set dst (s.gpr src)
  | .alu op dst imm =>
    { s.set dst (op.result (s.gpr dst) imm) with
      rflags := platform.aluFlags op (s.gpr dst) imm s.rflags }
  | .call => callee (s.pushWord platform.returnAddress)

def run (platform : Platform) (callee : Cpu → Cpu) (code : List Instr) (s : Cpu) : Cpu :=
  code.foldl (exec platform callee) s

/-- The word that `iret` pops as its `i`th. -/
def slot (size : OperandSize) (s : Cpu) (i : Nat) : U64 :=
  match size with
  | .dword => (loadAt s.mem 4 (behind (s.gpr .rsp) (4 * i))).setWidth 64
  | .qword => loadAt s.mem 8 (behind (s.gpr .rsp) (8 * i))

def isNull (selector : BitVec 16) : Bool := selector.toNat < 4

/-- An address that the upper bits sign-extend. -/
def canonical (a : U64) : Bool := (a.setWidth 48).signExtend 64 = a

/-- The return to a program in 64-bit mode: `rip`, `cs`, the flags, `rsp` and `ss`. -/
def iret (platform : Platform) (size : OperandSize) (s : Cpu) : Except Exception Program :=
  let cs := (slot size s 1).setWidth 16
  let ss := (slot size s 4).setWidth 16
  if isNull cs ∨ ¬platform.codeSegment cs ∨ ¬canonical (slot size s 0) then
    .error .gp
  else if ¬platform.stackSegment ss then
    .error .ss
  else
    .ok ⟨Function.update s.gpr .rsp (slot size s 3), slot size s 0, cs,
      platform.loadFlags size (slot size s 2) s.rflags, ss⟩

/-! ## The code -/

def pushRegs : List Instr :=
  [.push .rsp, .push .rbp, .push .r15, .push .r14, .push .r13, .push .r12, .push .r11, .push .r10,
    .push .r9, .push .r8, .push .rdi, .push .rsi, .push .rdx, .push .rcx, .push .rbx, .push .rax]

def popRegs : List Instr :=
  [.pop .rax, .pop .rbx, .pop .rcx, .pop .rdx, .pop .rsi, .pop .rdi, .pop .r8, .pop .r9, .pop .r10,
    .pop .r11, .pop .r12, .pop .r13, .pop .r14, .pop .r15, .pop .rbp, .pop .rsp]

/-- `ENTRY`, up to the call. -/
def entryBefore (ecode : Nat) : List Instr :=
  (if ecode = 0 then [.pushImm 0] else []) ++ pushRegs ++
    [.mov .rdi .rsp, .mov .rbx .rsp, .alu .and .rsp (-16), .alu .sub .rsp 8]

/-- `ENTRY`, between the call and the `iret`. -/
def entryAfter (ecode : Nat) : List Instr :=
  [.mov .rsp .rbx] ++ popRegs ++ if ecode = 0 then [.alu .add .rsp 8] else []

/-- An `iret` without a suffix has the default operand size, which in 64-bit code is 32 bits. -/
def iretSize : OperandSize := .dword

def atCall (platform : Platform) (ecode : Nat) (s : Cpu) : Cpu :=
  (run platform id (entryBefore ecode) s).pushWord platform.returnAddress

def atIret (platform : Platform) (callee : Cpu → Cpu) (ecode : Nat) (s : Cpu) : Cpu :=
  run platform callee (entryBefore ecode ++ [.call] ++ entryAfter ecode) s

/-- `ENTRY`, from the interrupt to the resumed program. -/
def entry (platform : Platform) (callee : Cpu → Cpu) (ecode : Nat) (s : Cpu) :
    Except Exception Program :=
  iret platform iretSize (atIret platform callee ecode s)

/-- `struct int_info` at `p`, packed. -/
def IntInfo.load (m : WordMem) (p : U64) : IntInfo :=
  let word (i : Nat) : U64 := loadAt m 8 (behind p (8 * i))
  ⟨⟨word 0, word 1, word 2, word 3, word 4, word 5, word 6, word 7, word 8, word 9, word 10,
      word 11, word 12, word 13, word 14, word 15⟩,
    ⟨word 16, word 17, word 18, word 19, word 20, word 21⟩⟩

/-! ## The handler -/

def calleeSaved : List Reg := [.rbx, .rbp, .r12, .r13, .r14, .r15]

/-- What a handler does that leaves its `int_info` alone but for `frame.rflags`, and gives the
stack and the registers back that a function has to. -/
structure Returns (s s' : Cpu) : Prop where
  rsp : s'.gpr .rsp = s.gpr .rsp + 8
  saved : ∀ r ∈ calleeSaved, s'.gpr r = s.gpr r
  info : ∀ k < 176, k < 152 ∨ 160 ≤ k →
    s'.mem (behind (s.gpr .rdi) k) = s.mem (behind (s.gpr .rdi) k)

/-- A handler, called with the `int_info` right above its stack. -/
structure Handler where
  run : Cpu → Cpu
  returns : ∀ s, s.gpr .rsp = (s.gpr .rdi &&& -16) - 16 → Returns s (run s)

/-! ## What the entry code is for -/

/-- The processor interrupts `p`: it goes to a stack that ends at `top` and pushes the frame. -/
def interrupt (p : Program) (top flags : U64) (mem : WordMem) : Cpu :=
  ((((Cpu.mk (Function.update p.gpr .rsp top) flags mem).pushWord (p.ss.setWidth 64)).pushWord
    (p.gpr .rsp)).pushWord p.rflags |>.pushWord (p.cs.setWidth 64)).pushWord p.rip

def Program.regs (p : Program) : GpRegs :=
  ⟨p.gpr .rax, p.gpr .rbx, p.gpr .rcx, p.gpr .rdx, p.gpr .rsi, p.gpr .rdi, p.gpr .r8, p.gpr .r9,
    p.gpr .r10, p.gpr .r11, p.gpr .r12, p.gpr .r13, p.gpr .r14, p.gpr .r15, p.gpr .rbp, p.gpr .rsp⟩

/-- Every field holds the value of the register it is named after. -/
structure Shows (info : IntInfo) (p : Program) : Prop where
  regs : info.regs = p.regs
  rip : info.frame.rip = p.rip
  cs : info.frame.cs = p.cs.setWidth 64
  rflags : info.frame.rflags = p.rflags
  rsp : info.frame.rsp = p.gpr .rsp
  ss : info.frame.ss = p.ss.setWidth 64

/-- The flags in the frame when the handler is done. -/
def handledFlags (platform : Platform) (handler : Handler) (s : Cpu) : U64 :=
  (IntInfo.load (handler.run (atCall platform 0 s)).mem
    ((atCall platform 0 s).gpr .rdi)).frame.rflags

/-- The handler sees the interrupted program, which goes on as it was but for its flags. -/
structure Transparent (platform : Platform) (handler : Handler) (p : Program) (s : Cpu) : Prop where
  shows : Shows (IntInfo.load (atCall platform 0 s).mem ((atCall platform 0 s).gpr .rdi)) p
  resumes : entry platform handler.run 0 s =
    .ok { p with rflags := handledFlags platform handler s }

end MidnightOS.Arch
