import MidnightOS.Debug.Dbgio

/-! # Command lines (`debug.c`)

The line editor, the splitter and the string functions of the debugger.  A pointer
into the command buffer is an index; what it points to is the rest of the buffer
from there on.
-/

namespace MidnightOS.Debug

open MidnightOS.Lib

/-! ## Characters and strings -/

/-- The argument is a `char`, which is signed, made an `int`. -/
def dbgIsspace (c : Byte) : Bool := c = chr ' ' ∨ (c.signExtend 32 - 9).toNat < 5

def dbgIsdigit (c : Byte) : Bool := (c.signExtend 32 - 48).toNat < 10

def load (str : Chars) (i : Nat) : Except Fault Byte :=
  match str[i]? with
  | some c => .ok c
  | none => .error .read

/-- `while (p(*s)) s++;` -/
def skip (p : Byte → Bool) : Chars → Except Fault Chars
  | [] => .error .read
  | c :: str => if p c then skip p str else .ok (c :: str)

/-- The value of a hexadecimal digit. -/
def hexValue (c : Byte) : Option (BitVec 64) :=
  if dbgIsdigit c then some (c.setWidth 64 - 48)
  else if 97 ≤ c.toNat ∧ c.toNat ≤ 102 then some (c.setWidth 64 - 97 + 10)
  else if 65 ≤ c.toNat ∧ c.toNat ≤ 70 then some (c.setWidth 64 - 65 + 10)
  else none

def hexLoop (n : BitVec 64) : Chars → Except Fault (BitVec 64)
  | [] => .error .read
  | c :: str =>
    if c = 0 then
      .ok n
    else
      match hexValue c with
      | some digit => hexLoop (n * 16 + digit) str
      | none => .ok n

/-- The number is built up negative. -/
def decimalLoop (n : BitVec 64) : Chars → Except Fault (BitVec 64)
  | [] => .error .read
  | c :: str =>
    if dbgIsdigit c then decimalLoop (10 * n - (c.setWidth 64 - 48)) str else .ok n

/-- A `long`, which wraps. -/
def dbgAtol (str : Chars) : Except Fault (BitVec 64) := do
  let str ← skip dbgIsspace str
  let sign ← load str 0
  let neg := decide (sign = chr '-')
  let str := if sign = chr '-' ∨ sign = chr '+' then str.drop 1 else str
  let first ← load str 0
  if first = chr '0' then
    let second ← load str 1
    if second = chr 'x' ∨ second = chr 'X' then
      let n ← hexLoop 0 (str.drop 2)
      .ok (if neg then -n else n)
    else
      let n ← decimalLoop 0 str
      .ok (if neg then n else -n)
  else
    let n ← decimalLoop 0 str
    .ok (if neg then n else -n)

def dbgStrcmp : (str1 str2 : Chars) → Except Fault Int
  | c1 :: str1, c2 :: str2 =>
    if c1 = c2 ∧ c1 ≠ 0 ∧ c2 ≠ 0 then dbgStrcmp str1 str2 else .ok ((c1.toNat : Int) - c2.toNat)
  | _, _ => .error .read

/-! ## The line editor -/

/-- What `dbg_getcmd` leaves: the buffer, `*size`, what it echoed and the keys it did not
read. -/
structure Typed where
  cmd : List Byte
  size : Nat
  echo : List Byte
  keys : List Byte
deriving DecidableEq

/-- The loop of `dbg_getcmd`.  With no key left it waits for ever. -/
def getcmdLoop (size : Nat) : (keys cmd : List Byte) → (i : Nat) → (echo : List Byte) → Option Typed
  | [], cmd, i, echo => if i < size then none else some ⟨cmd, i, echo, []⟩
  | c :: keys, cmd, i, echo =>
    if i < size then
      if c = 8 ∨ c = 127 then
        if 0 < i then
          getcmdLoop size keys cmd (i - 1) (echo ++ [8, chr ' ', 8])
        else
          getcmdLoop size keys cmd i echo
      else
        let cmd := cmd.set i c
        let echo := echo ++ [if c = 13 then 10 else c]
        if c = 10 ∨ c = 13 then
          some ⟨cmd.set i 0, i + 1, echo, keys⟩
        else
          getcmdLoop size keys cmd (i + 1) echo
    else
      some ⟨cmd, i, echo, c :: keys⟩

def dbgGetcmd (keys cmd : List Byte) (size : Nat) : Option Typed := getcmdLoop size keys cmd 0 []

/-! ## The splitter -/

/-- The buffer and the pointers as `dbg_parsecmd` leaves them, and what it returns. -/
structure Parsed where
  buff : List Byte
  argv : List (Option Nat)
  argc : Nat
deriving DecidableEq

/-- The number of characters that `p` accepts at the front. -/
def runOf (p : Byte → Bool) : Chars → Except Fault Nat
  | [] => .error .read
  | c :: str => if p c then (· + 1) <$> runOf p str else .ok 0

/-- `*buff && !dbg_isspace(*buff)` -/
def inWord (c : Byte) : Bool := c ≠ 0 ∧ ¬dbgIsspace c

/-- The loop of `dbg_parsecmd`, with the pointer at `i`. -/
def parseLoop (maxArgs : Nat) : (fuel i : Nat) → Parsed → Except Fault Parsed
  | 0, _, _ => .error .endless
  | fuel + 1, i, ⟨buff, argv, argc⟩ => do
    let c ← load buff i
    if c ≠ 0 ∧ argc < maxArgs then
      let spaces ← runOf dbgIsspace (buff.drop i)
      let start := i + spaces
      let c ← load buff start
      if c = 0 then
        .ok ⟨buff, argv, argc⟩
      else
        let argv := argv.set argc (some start)
        let letters ← runOf inWord (buff.drop start)
        let stop := start + letters
        let c ← load buff stop
        if c ≠ 0 then
          parseLoop maxArgs fuel (stop + 1) ⟨buff.set stop 0, argv, argc + 1⟩
        else
          parseLoop maxArgs fuel stop ⟨buff, argv, argc + 1⟩
    else
      .ok ⟨buff, argv, argc⟩

/-- Every round but the last one advances the pointer. -/
def dbgParsecmd (buff : List Byte) (argv : List (Option Nat)) (maxArgs : Nat) :
    Except Fault Parsed :=
  parseLoop maxArgs (buff.length + 1) 0 ⟨buff, argv, 0⟩

end MidnightOS.Debug
