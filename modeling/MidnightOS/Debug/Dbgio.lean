import MidnightOS.Lib.ByteMemory
import MidnightOS.Lib.FallibleState
import Mathlib.Data.List.FinRange
import Mathlib.Data.List.TakeWhile
import Mathlib.Logic.Function.Basic

/-! # Formatted debug output (`dbgio.c`)

A `char *` is the list of the characters from where it points to the end of the
array it points into, so advancing it drops characters and reading past the array
ends the run in a fault.  The conversion routines never read their static
buffers: each one is the list of the stores it makes, in order.
-/

namespace MidnightOS.Debug

open MidnightOS.Lib

/-- What C gives no meaning to.  A run ends there. -/
inductive Fault where
  /-- a read past the end of a character array -/
  | read
  /-- a store outside the array -/
  | store
  /-- `va_arg` with no argument left, or one of another type -/
  | argument
  /-- a loop that did not end -/
  | endless
  /-- a read through a null pointer -/
  | null
deriving DecidableEq

theorem ok_bind {α β : Type} (a : α) (f : α → Except Fault β) : (.ok a >>= f) = f a := rfl

abbrev Chars := List Byte

def chr (c : Char) : Byte := BitVec.ofNat 8 c.toNat

/-- The characters before the terminating NUL. -/
structure CString where
  chars : List Byte
  noNul : 0 ∉ chars
deriving DecidableEq

/-- The characters before the first NUL. -/
def textOf (str : Chars) : List Byte := str.takeWhile (· ≠ 0)

theorem zero_notMem_textOf (str : Chars) : 0 ∉ textOf str := by
  intro hmem
  have := List.mem_takeWhile_imp hmem
  simp at this

theorem textOf_cons {c : Byte} (h : c ≠ 0) (str : Chars) :
    textOf (c :: str) = c :: textOf str := by
  rw [textOf, List.takeWhile_cons_of_pos (by simpa using h)]
  rfl

theorem textOf_append_nul {chars : List Byte} (h : 0 ∉ chars) : textOf (chars ++ [0]) = chars := by
  induction chars with
  | nil => rfl
  | cons c chars ih =>
    rw [List.mem_cons, not_or] at h
    rw [List.cons_append, textOf_cons (Ne.symm h.1), ih h.2]

theorem textOf_isPrefixOf (str : Chars) : textOf str <+: str := List.takeWhile_prefix _

/-- The string that a character array begins with. -/
def CString.startOf (str : Chars) : CString := ⟨textOf str, zero_notMem_textOf str⟩

/-- A string literal. -/
def CString.literal (s : String) : CString := startOf (s.toList.map chr)

/-- The array that a string is stored in. -/
def CString.object (s : CString) : Chars := s.chars ++ [0]

/-- A variable argument, as wide as it is passed. -/
inductive Arg where
  | int (word : BitVec 32)
  | long (word : BitVec 64)
  | string (str : CString)
deriving DecidableEq

/-! ## The conversion routines -/

/-- A store to a cell of a buffer.  The index is computed as an `int`. -/
abbrev Store := Int × Byte

abbrev StrBuff := Fin 128 → Byte

/-- The static buffers that a routine uses. -/
inductive StrBuffName where
  | toU64
  | toH64
  | toH32
  | toH8
  | toI64
deriving DecidableEq

abbrev StrBuffs := StrBuffName → StrBuff

def makeStores : List Store → StrBuff → Except Fault StrBuff
  | [], buff => .ok buff
  | (index, c) :: stores, buff =>
    if h : 0 ≤ index ∧ index < 128 then
      makeStores stores (Function.update buff ⟨index.toNat, by omega⟩ c)
    else
      .error .store

/-- `(char) (remainder) + '0'` -/
def decimalDigit (remainder : BitVec 8) : Byte := remainder + chr '0'

/-- `while (sizeTest / 10 > 0) { sizeTest /= 10; length++; }` -/
def sizeLoop : (fuel : Nat) → (sizeTest length : Nat) → Option Nat
  | 0, _, _ => none
  | fuel + 1, sizeTest, length =>
    if sizeTest / 10 > 0 then sizeLoop fuel (sizeTest / 10) (length + 1) else some length

/-- The `do .. while` loop of `u64_to_str` and the stores after it. -/
def u64Loop (length : Nat) : (fuel : Nat) → (v index : Nat) → Option (List Store)
  | 0, _, _ => none
  | fuel + 1, v, index =>
    let store : Store := ((length : Int) - index, decimalDigit (BitVec.ofNat 8 (v % 10)))
    let v := v / 10
    let index := index + 1
    if v / 10 > 0 then
      (u64Loop length fuel v index).map (store :: ·)
    else
      some [store, ((length : Int) - index, decimalDigit (BitVec.ofNat 8 (v % 10))),
        ((length : Int) + 1, 0)]

/-- The loop of `s64_to_str` and the stores after it, from the cell `first` on. -/
def s64Loop (first length : Nat) : (fuel : Nat) → (v : Int) → (index : Nat) → Option (List Store)
  | 0, _, _ => none
  | fuel + 1, v, index =>
    let store : Store :=
      ((first : Int) + length - index, decimalDigit (BitVec.ofInt 8 (v.tmod 10)))
    if v.tdiv 10 > 0 then
      (s64Loop first length fuel (v.tdiv 10) (index + 1)).map (store :: ·)
    else
      some [store, ((first : Int) + length + 1, 0)]

/-- `2 ^ 64` has twenty decimal digits. -/
def digitFuel : Nat := 20

def u64Stores (v : BitVec 64) : Option (List Store) := do
  let length ← sizeLoop digitFuel v.toNat 0
  u64Loop length digitFuel v.toNat 0

def s64Stores (v : BitVec 64) : Option (List Store) :=
  if v.toInt < 0 then do
    -- the negation wraps, so the smallest number stays negative
    let v := -v
    let length ← sizeLoop digitFuel v.toNat 0
    (s64Loop 1 length digitFuel v.toInt 0).map ((0, chr '-') :: ·)
  else do
    let length ← sizeLoop digitFuel v.toNat 0
    s64Loop 0 length digitFuel v.toInt 0

/-- The digit of `hexDigits` for a number below 16. -/
def hexDigit (n : Nat) : Byte :=
  if n < 10 then chr '0' + BitVec.ofNat 8 n else chr 'A' + BitVec.ofNat 8 (n - 10)

/-- The digits are stored from the last one on, the NUL at `terminator`. -/
def hexStores (digits terminator : Nat) (v : Nat) : List Store :=
  (List.range digits).map (fun i : Nat => ((digits : Int) - 1 - i, hexDigit ((v >>> (i * 4)) &&& 0xF))) ++
    [((terminator : Int), 0)]

/-- The routines use their buffers and nothing else. -/
abbrev BuffM := EStateM Fault StrBuffs

/-- Make the stores of a routine, and return its buffer. -/
def convert (name : StrBuffName) (stores : Option (List Store)) : BuffM Chars := do
  let buffs ← get
  match stores with
  | none => throw .endless
  | some stores =>
    match makeStores stores (buffs name) with
    | .error e => throw e
    | .ok buff =>
      set (Function.update buffs name buff)
      pure (List.ofFn buff)

def u64ToStr (v : BitVec 64) : BuffM Chars := convert .toU64 (u64Stores v)

def u64ToHstr (v : BitVec 64) : BuffM Chars := convert .toH64 (some (hexStores 16 16 v.toNat))

def u32ToHstr (v : BitVec 32) : BuffM Chars := convert .toH32 (some (hexStores 8 8 v.toNat))

/-- The terminator is at 8 here too. -/
def u8ToHstr (v : BitVec 8) : BuffM Chars := convert .toH8 (some (hexStores 2 8 v.toNat))

def s64ToStr (v : BitVec 64) : BuffM Chars := convert .toI64 (s64Stores v)

/-! ## The sinks -/

/-- A character handed to the sink in a slot. -/
structure Call (σ : Type) where
  slot : Fin 4
  sink : σ
  char : Byte
deriving DecidableEq

abbrev Sinks (σ : Type) := Fin 4 → Option σ

/-- The state of the file, and what was sent so far. -/
structure DbgIo (σ : Type) where
  sinks : Sinks σ
  buffs : StrBuffs
  sent : List (Call σ)

abbrev DbgM (σ : Type) := EStateM Fault (DbgIo σ)

def EBUSY : Int := 16

section Sinks

variable {σ : Type} [DecidableEq σ]

def dbgRegisterSink (sink : σ) : DbgM σ Int := do
  let s ← get
  match (List.finRange 4).find? fun i => s.sinks i = none with
  | some i =>
    set { s with sinks := Function.update s.sinks i (some sink) }
    pure 0
  | none => pure (-EBUSY)

def dbgUnregisterSink (sink : σ) : DbgM σ Unit := do
  let s ← get
  match (List.finRange 4).find? fun i => s.sinks i = some sink with
  | some i => set { s with sinks := Function.update s.sinks i none }
  | none => pure ()

end Sinks

variable {σ : Type}

/-- The calls that hand `c` to every occupied slot. -/
def sinkCalls (sinks : Sinks σ) (c : Byte) : List (Call σ) :=
  (List.finRange 4).filterMap fun i => (sinks i).map fun sink => ⟨i, sink, c⟩

def dbgSinkchr (c : Byte) : DbgM σ Unit :=
  modify fun s => { s with sent := s.sent ++ sinkCalls s.sinks c }

/-! ## The scanner -/

def charAt (str : Chars) (i : Nat) : DbgM σ Byte :=
  match str[i]? with
  | some c => pure c
  | none => throw .read

def dbgStrlen : Chars → DbgM σ Nat
  | [] => throw .read
  | c :: str => if c ≠ 0 then (· + 1) <$> dbgStrlen str else pure 0

def dbgInternalPrintStr : (str : Chars) → (len : Nat) → DbgM σ Unit
  | _, 0 => pure ()
  | [], _ + 1 => throw .read
  | c :: str, len + 1 => do
    dbgSinkchr c
    dbgInternalPrintStr str len

/-- Call a conversion routine. -/
def onBuffs {α : Type} (routine : BuffM α) : DbgM σ α := fun s =>
  match routine s.buffs with
  | .ok a buffs => .ok a { s with buffs }
  | .error e buffs => .error e { s with buffs }

/-- `va_arg` of an `int`, an `s32` or a `u32`. -/
def vaArgInt : List Arg → DbgM σ (BitVec 32 × List Arg)
  | .int word :: params => pure (word, params)
  | _ => throw .argument

/-- `va_arg` of an `s64` or a `u64`. -/
def vaArgLong : List Arg → DbgM σ (BitVec 64 × List Arg)
  | .long word :: params => pure (word, params)
  | _ => throw .argument

/-- `va_arg` of a `const char *`. -/
def vaArgString : List Arg → DbgM σ (CString × List Arg)
  | .string str :: params => pure (str, params)
  | _ => throw .argument

/-- How a round of the loop ends. -/
inductive Round where
  | next (fmt : Chars) (params : List Arg) (written : Nat)
  | stop (result : Nat)

def sizeMax : Nat := 2 ^ 64 - 1

/-- Print `amount` characters of `str`, if the count still fits a `size_t`. -/
def printAmount (str : Chars) (amount : Nat) (fmt : Chars) (params : List Arg) (written : Nat) :
    DbgM σ Round :=
  if sizeMax - written < amount then
    pure (.stop 0)
  else do
    dbgInternalPrintStr str amount
    pure (.next fmt params (written + amount))

/-- What the branches for a string and for the numbers end with. -/
def printString (str : Chars) (fmt : Chars) (params : List Arg) (written : Nat) :
    DbgM σ Round := do
  let amount ← dbgStrlen str
  printAmount str amount fmt params written

/-- `while (fmt[amount] && fmt[amount] != '%') { amount++; }`, counted from `fmt[amount]` on. -/
def runLength : Chars → DbgM σ Nat
  | [] => throw .read
  | c :: fmt => if c ≠ 0 ∧ c ≠ chr '%' then (· + 1) <$> runLength fmt else pure 0

/-- `fmt[0] != '%' || fmt[1] == '%'` -/
def atLiteral (fmt : Chars) : DbgM σ Bool := do
  if (← charAt fmt 0) ≠ chr '%' then
    pure true
  else
    pure ((← charAt fmt 1) = chr '%')

/-- `*fmt == 'l' && fmt[1] == c` -/
def atLong (fmt : Chars) (c : Byte) : DbgM σ Bool := do
  if (← charAt fmt 0) = chr 'l' then
    pure ((← charAt fmt 1) = c)
  else
    pure false

/-- The chain of the directives, with `fmt` behind the percent sign at `fmtBegunAt`. -/
def directiveRound (fmtBegunAt fmt : Chars) (params : List Arg) (written : Nat) :
    DbgM σ Round := do
  let c ← charAt fmt 0
  if c = chr 'c' then
    let (num, params) ← vaArgInt params
    printAmount [num.setWidth 8] 1 (fmt.drop 1) params written
  else if c = chr 's' then
    let (str, params) ← vaArgString params
    printString str.object (fmt.drop 1) params written
  else if c = chr 'd' ∨ c = chr 'i' then
    let (num, params) ← vaArgInt params
    let str ← onBuffs (s64ToStr (num.signExtend 64))
    printString str (fmt.drop 1) params written
  else
    let ld ← atLong fmt (chr 'd')
    let li ← if ld then pure true else atLong fmt (chr 'i')
    if li then
      let (num, params) ← vaArgLong params
      let str ← onBuffs (s64ToStr num)
      printString str (fmt.drop 2) params written
    else if c = chr 'u' then
      let (num, params) ← vaArgInt params
      let str ← onBuffs (u64ToStr (num.setWidth 64))
      printString str (fmt.drop 1) params written
    else
      let lu ← atLong fmt (chr 'u')
      if lu then
        let (num, params) ← vaArgLong params
        let str ← onBuffs (u64ToStr num)
        printString str (fmt.drop 2) params written
      else if c = chr 'b' then
        let (num, params) ← vaArgInt params
        let str ← onBuffs (u8ToHstr (num.setWidth 8))
        printString str (fmt.drop 1) params written
      else if c = chr 'x' then
        let (num, params) ← vaArgInt params
        let str ← onBuffs (u32ToHstr num)
        printString str (fmt.drop 1) params written
      else
        let lx ← atLong fmt (chr 'x')
        if lx then
          let (num, params) ← vaArgLong params
          let str ← onBuffs (u64ToHstr num)
          printString str (fmt.drop 2) params written
        else
          -- `fmt = fmt_begun_at`: the rest goes out as it is, up to its NUL
          let amount ← dbgStrlen fmtBegunAt
          printAmount fmtBegunAt amount (fmtBegunAt.drop amount) params written

/-- One round of the loop of `dbg_internal_print`. -/
def printRound (fmt : Chars) (params : List Arg) (written : Nat) : DbgM σ Round := do
  let literal ← atLiteral fmt
  if literal then
    let c ← charAt fmt 0
    let fmt := if c = chr '%' then fmt.drop 1 else fmt
    let more ← runLength (fmt.drop 1)
    printAmount fmt (1 + more) (fmt.drop (1 + more)) params written
  else
    directiveRound fmt (fmt.drop 1) params written

def printLoop : (fuel : Nat) → Chars → List Arg → (written : Nat) → DbgM σ Nat
  | 0, _, _, _ => throw .endless
  | fuel + 1, fmt, params, written => do
    let c ← charAt fmt 0
    if c = 0 then
      pure written
    else
      match ← printRound fmt params written with
      | .next fmt params written => printLoop fuel fmt params written
      | .stop result => pure result

/-- Every round advances `fmt`, so its length is enough. -/
def dbgInternalPrint (fmt : Chars) (params : List Arg) : DbgM σ Nat :=
  printLoop fmt.length fmt params 0

def dbgMsg (fmt : CString) (params : List Arg) : DbgM σ Nat :=
  dbgInternalPrint fmt.object params

end MidnightOS.Debug
