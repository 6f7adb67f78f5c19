import MidnightOS.Lib.ByteMemory

/-! # What an interrupt saves (`asm/cpu.h`) -/

namespace MidnightOS.Arch

abbrev U64 := BitVec 64

/-- `struct gp_regs` -/
structure GpRegs where
  rax : U64
  rbx : U64
  rcx : U64
  rdx : U64
  rsi : U64
  rdi : U64
  r8 : U64
  r9 : U64
  r10 : U64
  r11 : U64
  r12 : U64
  r13 : U64
  r14 : U64
  r15 : U64
  rbp : U64
  rsp : U64
deriving DecidableEq

/-- `struct int_frame` -/
structure IntFrame where
  ecode : U64
  rip : U64
  cs : U64
  rflags : U64
  rsp : U64
  ss : U64
deriving DecidableEq

/-- `struct int_info` -/
structure IntInfo where
  regs : GpRegs
  frame : IntFrame
deriving DecidableEq

end MidnightOS.Arch
