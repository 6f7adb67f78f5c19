import MidnightOS.Debug.Dbgio

/-! # The serial port (`dbg_serial.c`)

The driver, over a chip that keeps the registers the driver writes.  The chip takes its time: it
is busy for a number of accesses after each byte, and bytes come in between one access and the
next.  Over a chip that works the driver is a line, unless the chip overruns.
-/

namespace MidnightOS.Debug

open MidnightOS.Lib

/-! ## The chip -/

/-- What differs between chips: what a byte reads back as in loopback mode, for how many accesses
after the `n`-th byte the transmitter is busy, and how many received bytes it can hold. -/
structure Chip where
  echo : Byte → Byte
  delay : Nat → Nat
  room : Nat

/-- The registers of the chip at COM1.  `wire` is what was sent, `received` what can be read and
`coming` what comes in before each access, the oldest first.  `lost` says that a byte was to
be sent while the chip was busy, `overrun` that one came in while it was full. -/
structure Uart where
  interruptEnable : Byte
  divisorLow : Byte
  divisorHigh : Byte
  fifoControl : Byte
  lineControl : Byte
  modemControl : Byte
  received : List Byte
  coming : List (List Byte)
  busy : Nat
  written : Nat
  wire : List Byte
  lost : Bool
  overrun : Bool

/-- The divisor is in the place of the first two registers. -/
def Uart.divisorAccess (u : Uart) : Bool := u.lineControl.getLsbD 7

def Uart.loopback (u : Uart) : Bool := u.modemControl.getLsbD 4

/-- A byte for the receiver. -/
def Uart.receive (chip : Chip) (u : Uart) (c : Byte) : Uart :=
  if u.received.length < chip.room then { u with received := u.received ++ [c] }
  else { u with overrun := true }

/-- A byte for the transmitter.  In loopback mode it comes back before the next access. -/
def Uart.transmit (chip : Chip) (u : Uart) (v : Byte) : Uart :=
  let u' := { u with busy := chip.delay u.written, written := u.written + 1 }
  if u.loopback then u'.receive chip (chip.echo v)
  else { u' with wire := u.wire ++ [v], lost := u.lost || 0 < u.busy }

/-- Time passes.  In loopback mode the receiver does not hear what comes in. -/
def Uart.wait (chip : Chip) (u : Uart) : Uart :=
  let u' := { u with busy := u.busy - 1, coming := u.coming.tail }
  if u.loopback then u' else (u.coming.headD []).foldl (Uart.receive chip) u'

/-- The chip after `outb`. -/
def Uart.write (chip : Chip) (u : Uart) (reg : Nat) (v : Byte) : Uart :=
  match reg with
  | 0 => if u.divisorAccess then { u with divisorLow := v } else u.transmit chip v
  | 1 => if u.divisorAccess then { u with divisorHigh := v } else { u with interruptEnable := v }
  | 2 => { u with fifoControl := v, received := if v.getLsbD 1 then [] else u.received }
  | 3 => { u with lineControl := v }
  | 4 => { u with modemControl := v }
  | _ => u

/-- The line status. -/
def Uart.status (u : Uart) : Byte :=
  (if u.received = [] then 0 else 0x01) ||| (if u.busy = 0 then 0x20 else 0)

/-- What `inb` of the buffer and of the line status returns, and the chip after it. -/
def Uart.read (u : Uart) (reg : Nat) : Byte × Uart :=
  match reg with
  | 0 =>
    if u.divisorAccess then (u.divisorLow, u)
    else (u.received.headD 0, { u with received := u.received.tail })
  | 5 => (u.status, u)
  | _ => (0, u)

/-- Time passes before an access. -/
def Uart.out (chip : Chip) (u : Uart) (reg : Nat) (v : Byte) : Uart :=
  (u.wait chip).write chip reg v

/-! ## The source -/

/-- The chip and `dbg_serial_initialized`. -/
structure Serial where
  uart : Uart
  initialized : Bool

abbrev SerialM := EStateM Fault Serial

def ENODEV : Int := 19

def outb (chip : Chip) (reg : Nat) (v : Byte) : SerialM Unit :=
  modify fun s => { s with uart := s.uart.out chip reg v }

def inb (chip : Chip) (reg : Nat) : SerialM Byte := do
  let s ← get
  modify fun s => { s with uart := ((s.uart.wait chip).read reg).2 }
  return ((s.uart.wait chip).read reg).1

def dbgSerialInit (chip : Chip) : SerialM Int := do
  let s ← get
  if s.initialized then return 0
  else do
    outb chip 1 0x00
    outb chip 3 0x80
    outb chip 0 0x03
    outb chip 1 0x00
    outb chip 3 0x03
    outb chip 2 0xC7
    outb chip 4 0x1E
    outb chip 0 0xAE
    let v ← inb chip 0
    if v ≠ 0xAE then return -ENODEV
    else do
      outb chip 4 0x0F
      modify fun s => { s with initialized := true }
      return 0

def dbgSerialIsTxEmpty (chip : Chip) : SerialM Bool := do
  let v ← inb chip 5
  return v &&& 0x20 ≠ 0

/-- `while (!dbg_serial_is_tx_empty());` -/
def waitTxEmpty (chip : Chip) : (fuel : Nat) → SerialM Unit
  | 0 => throw .endless
  | fuel + 1 => do
    let empty ← dbgSerialIsTxEmpty chip
    if empty then return () else waitTxEmpty chip fuel

/-- The wait, and the byte. -/
def putWhenEmpty (chip : Chip) (c : Byte) : SerialM Unit := do
  let s ← get
  waitTxEmpty chip (s.uart.busy + 1)
  outb chip 0 c

/-- `if (!dbg_serial_initialized) { if (dbg_serial_init() < 0) { return; } }`: is the chip there? -/
def dbgSerialReady (chip : Chip) : SerialM Bool := do
  let s ← get
  if s.initialized then return true
  else do
    let res ← dbgSerialInit chip
    return ¬res < 0

/-- `dbg_serial_putc` of anything but a line feed. -/
def dbgSerialPutOther (chip : Chip) (c : Byte) : SerialM Unit := do
  let ready ← dbgSerialReady chip
  if ready then putWhenEmpty chip c else return ()

/-- The call of itself is for a carriage return, which makes no more calls. -/
def dbgSerialPutc (chip : Chip) (c : Byte) : SerialM Unit := do
  let ready ← dbgSerialReady chip
  if ready then
    if c = chr '\n' then do
      dbgSerialPutOther chip (chr '\r')
      putWhenEmpty chip c
    else putWhenEmpty chip c
  else return ()

def dbgSerialIsRxAvail (chip : Chip) : SerialM Bool := do
  let v ← inb chip 5
  return v &&& 0x01 ≠ 0

/-- `while (!dbg_serial_is_rx_avail());` -/
def waitRxAvail (chip : Chip) : (fuel : Nat) → SerialM Unit
  | 0 => throw .endless
  | fuel + 1 => do
    let avail ← dbgSerialIsRxAvail chip
    if avail then return () else waitRxAvail chip fuel

/-- When all has come in that is to come, the wait goes on for ever. -/
def dbgSerialGetc (chip : Chip) : SerialM Byte := do
  let ready ← dbgSerialReady chip
  if ready then do
    let s ← get
    waitRxAvail chip (s.uart.coming.length + 1)
    inb chip 0
  else return 0

/-! ## Runs -/

inductive SerialOp where
  | put (c : Byte)
  | get

/-- The bytes that the calls of `dbg_serial_getc` return. -/
def runSerial (chip : Chip) : List SerialOp → SerialM (List Byte)
  | [] => return []
  | .put c :: ops => do
    dbgSerialPutc chip c
    runSerial chip ops
  | .get :: ops => do
    let c ← dbgSerialGetc chip
    let cs ← runSerial chip ops
    return c :: cs

/-- A terminal wants a carriage return in front of a line feed. -/
def withReturn (c : Byte) : List Byte := if c = chr '\n' then [chr '\r', c] else [c]

/-- What a run sends. -/
def texts : List SerialOp → List Byte
  | [] => []
  | .put c :: ops => withReturn c ++ texts ops
  | .get :: ops => texts ops

/-- How many bytes it asks for. -/
def gets : List SerialOp → Nat
  | [] => 0
  | .put _ :: ops => gets ops
  | .get :: ops => gets ops + 1

/-! ## The registers -/

/-- The chip as `dbg_serial_init` leaves it: 38400 baud, eight bits, no parity, a stop bit, no
interrupts, and not in loopback mode. -/
structure Uart.SetUp (u : Uart) : Prop where
  interruptEnable : u.interruptEnable = 0x00
  divisorLow : u.divisorLow = 0x03
  divisorHigh : u.divisorHigh = 0x00
  fifoControl : u.fifoControl = 0xC7
  lineControl : u.lineControl = 0x03
  modemControl : u.modemControl = 0x0F

/-- The test of `dbg_serial_init` succeeds. -/
def Chip.Works (chip : Chip) : Prop := chip.echo 0xAE = 0xAE ∧ 0 < chip.room

section Registers

variable {chip : Chip} {u : Uart}

theorem Uart.SetUp.plain (setUp : u.SetUp) : u.divisorAccess = false := by
  rw [Uart.divisorAccess, setUp.lineControl]
  rfl

theorem Uart.SetUp.hears (setUp : u.SetUp) : u.loopback = false := by
  rw [Uart.loopback, setUp.modemControl]
  rfl

/-- What is sent and received leaves the driver's registers alone. -/
theorem Uart.SetUp.moved (setUp : u.SetUp) (received : List Byte) (coming : List (List Byte))
    (busy written : Nat) (wire : List Byte) (lost overrun : Bool) :
    Uart.SetUp { u with received, coming, busy, written, wire, lost, overrun } :=
  ⟨setUp.1, setUp.2, setUp.3, setUp.4, setUp.5, setUp.6⟩

/-- Nothing comes in before the next `n` accesses. -/
def Uart.Quiet (u : Uart) (n : Nat) : Prop := ∀ k < n, u.coming.getD k [] = []

theorem Uart.Quiet.wait {v : Uart} {n k : Nat} (quiet : u.Quiet n) (hk : k < n)
    (place : v.coming = u.coming.drop k) :
    v.wait chip = { v with busy := v.busy - 1, coming := u.coming.drop (k + 1) } := by
  have silent : v.coming.headD [] = [] := by
    have := quiet k hk
    rw [place, List.headD_eq_head?_getD, List.head?_drop]
    simpa using this
  have later : v.coming.tail = u.coming.drop (k + 1) := by rw [place, List.tail_drop]
  rw [Uart.wait, silent, later]
  exact ite_self _

theorem Uart.Quiet.stream {n : Nat} (quiet : u.Quiet n) :
    (u.coming.drop n).flatten = u.coming.flatten := by
  induction n with
  | zero => rfl
  | succ n ih =>
    rw [← ih fun k hk => quiet k (Nat.lt_succ_of_lt hk)]
    have silent := quiet n (Nat.lt_succ_self n)
    by_cases h : n < u.coming.length
    · rw [List.getD_eq_getElem?_getD, List.getElem?_eq_getElem h, Option.getD_some] at silent
      rw [List.drop_eq_getElem_cons h, silent, List.flatten_cons, List.nil_append]
    · rw [List.drop_eq_nil_of_le (by omega), List.drop_eq_nil_of_le (by omega)]

/-- The chip in loopback mode, with the byte of the test on its way. -/
def Uart.tested (chip : Chip) (u : Uart) : Uart :=
  (((((((u.out chip 1 0x00).out chip 3 0x80).out chip 0 0x03).out chip 1 0x00).out chip
    3 0x03).out chip 2 0xC7).out chip 4 0x1E).out chip 0 0xAE

theorem tested_eq (plain : u.divisorAccess = false) (quiet : u.Quiet 10) :
    u.tested chip =
      { u with
        interruptEnable := 0x00, divisorLow := 0x03, divisorHigh := 0x00
        fifoControl := 0xC7, lineControl := 0x03, modemControl := 0x1E
        received := if 0 < chip.room then [chip.echo 0xAE] else []
        coming := u.coming.drop 8, busy := chip.delay u.written, written := u.written + 1
        overrun := u.overrun || chip.room = 0 } := by
  have out_eq {v : Uart} (k reg : Nat) (b : Byte) (hk : k < 10)
      (place : v.coming = u.coming.drop k) : v.out chip reg b =
        Uart.write chip { v with busy := v.busy - 1, coming := u.coming.drop (k + 1) } reg b := by
    rw [Uart.out, quiet.wait hk place]
  have divisor (v : Uart) (h : v.lineControl = 0x80) : v.divisorAccess = true := by
    rw [Uart.divisorAccess, h]
    rfl
  -- the chip after each access, up to the byte of the test
  let u₁ := { u with interruptEnable := 0x00, busy := u.busy - 1, coming := u.coming.drop 1 }
  let u₂ := { u₁ with lineControl := 0x80, busy := u₁.busy - 1, coming := u.coming.drop 2 }
  let u₃ := { u₂ with divisorLow := 0x03, busy := u₂.busy - 1, coming := u.coming.drop 3 }
  let u₄ := { u₃ with divisorHigh := 0x00, busy := u₃.busy - 1, coming := u.coming.drop 4 }
  let u₅ := { u₄ with lineControl := 0x03, busy := u₄.busy - 1, coming := u.coming.drop 5 }
  let u₆ := { u₅ with
    fifoControl := 0xC7, received := [], busy := u₅.busy - 1, coming := u.coming.drop 6 }
  let u₇ := { u₆ with modemControl := 0x1E, busy := u₆.busy - 1, coming := u.coming.drop 7 }
  have out₁ : u.out chip 1 0x00 = u₁ :=
    (out_eq 0 1 0x00 (by decide) rfl).trans (if_neg (Bool.eq_false_iff.mp plain))
  have out₂ : u₁.out chip 3 0x80 = u₂ := out_eq 1 3 0x80 (by decide) rfl
  have out₃ : u₂.out chip 0 0x03 = u₃ :=
    (out_eq 2 0 0x03 (by decide) rfl).trans (if_pos (divisor _ rfl))
  have out₄ : u₃.out chip 1 0x00 = u₄ :=
    (out_eq 3 1 0x00 (by decide) rfl).trans (if_pos (divisor _ rfl))
  have out₅ : u₄.out chip 3 0x03 = u₅ := out_eq 4 3 0x03 (by decide) rfl
  have out₆ : u₅.out chip 2 0xC7 = u₆ := out_eq 5 2 0xC7 (by decide) rfl
  have out₇ : u₆.out chip 4 0x1E = u₇ := out_eq 6 4 0x1E (by decide) rfl
  rw [Uart.tested, out₁, out₂, out₃, out₄, out₅, out₆, out₇, out_eq 7 0 0xAE (by decide) rfl]
  by_cases room : 0 < chip.room
  · simp [Uart.write, Uart.divisorAccess, Uart.transmit, Uart.loopback, Uart.receive, room,
      Nat.ne_of_gt room, u₇, u₆, u₅, u₄, u₃, u₂, u₁]
  · simp [Uart.write, Uart.divisorAccess, Uart.transmit, Uart.loopback, Uart.receive,
      Nat.eq_zero_of_not_pos room, u₇, u₆, u₅, u₄, u₃, u₂, u₁]

/-- What the test reads, and the chip after it. -/
theorem tested_read (plain : u.divisorAccess = false) (quiet : u.Quiet 10) :
    ((u.tested chip).wait chip).read 0 =
      (if 0 < chip.room then chip.echo 0xAE else 0,
        { u with
          interruptEnable := 0x00, divisorLow := 0x03, divisorHigh := 0x00
          fifoControl := 0xC7, lineControl := 0x03, modemControl := 0x1E
          received := [], coming := u.coming.drop 9
          busy := chip.delay u.written - 1, written := u.written + 1
          overrun := u.overrun || chip.room = 0 }) := by
  rw [tested_eq plain quiet, quiet.wait (k := 8) (by decide) rfl]
  by_cases room : 0 < chip.room
  · simp [Uart.read, Uart.divisorAccess, room]
  · simp [Uart.read, Uart.divisorAccess, room]

theorem test_iff (plain : u.divisorAccess = false) (quiet : u.Quiet 10) :
    (((u.tested chip).wait chip).read 0).1 = 0xAE ↔ chip.Works := by
  rw [tested_read plain quiet, Chip.Works]
  by_cases room : 0 < chip.room
  · simp [room]
  · simp [room]

/-- The chip after a test that succeeds. -/
theorem tested_works (plain : u.divisorAccess = false) (quiet : u.Quiet 10)
    (works : chip.Works) :
    (((u.tested chip).wait chip).read 0).2.out chip 4 0x0F =
      { u with
        interruptEnable := 0x00, divisorLow := 0x03, divisorHigh := 0x00
        fifoControl := 0xC7, lineControl := 0x03, modemControl := 0x0F
        received := [], coming := u.coming.drop 10
        busy := chip.delay u.written - 1 - 1, written := u.written + 1 } := by
  rw [tested_read plain quiet, Uart.out, quiet.wait (k := 9) (by decide) rfl]
  simp [Uart.write, Nat.ne_of_gt works.2]

theorem status_tx (u : Uart) : (u.status &&& 0x20 ≠ 0) ↔ u.busy = 0 := by
  by_cases none : u.received = [] <;> by_cases idle : u.busy = 0 <;> simp [Uart.status, none, idle]

theorem status_rx (u : Uart) : (u.status &&& 0x01 ≠ 0) ↔ u.received ≠ [] := by
  by_cases none : u.received = [] <;> by_cases idle : u.busy = 0 <;> simp [Uart.status, none, idle]

end Registers

/-! ## The port as a line -/

/-- All that can still be read.  What the chip received before its first use is dropped. -/
def Serial.stream (s : Serial) : List Byte :=
  (if s.initialized then s.uart.received else []) ++ s.uart.coming.flatten

/-- From `s` to `s'` the port read `cs` and sent `text`.  Bytes that came in may be missing where
the chip overran, and nowhere else; none is read twice or out of order. -/
structure Serial.Moves (s : Serial) (cs text : List Byte) (s' : Serial) : Prop where
  wire : s'.uart.wire = s.uart.wire ++ text
  reads : (cs ++ s'.stream).Sublist s.stream
  all : s'.uart.overrun = false → cs ++ s'.stream = s.stream
  recorded : s.uart.overrun = true → s'.uart.overrun = true
  lost : s'.uart.lost = s.uart.lost

namespace Serial.Moves

variable {s s' s'' : Serial} {cs cs' text text' : List Byte}

theorem refl (s : Serial) : s.Moves [] [] s :=
  ⟨(List.append_nil _).symm, List.Sublist.refl _, fun _ => rfl, id, rfl⟩

theorem trans (first : s.Moves cs text s') (second : s'.Moves cs' text' s'') :
    s.Moves (cs ++ cs') (text ++ text') s'' where
  wire := by rw [second.wire, first.wire, List.append_assoc]
  reads := by
    rw [List.append_assoc]
    exact (second.reads.append_left cs).trans first.reads
  all exact'' := by
    have exact' : s'.uart.overrun = false := by
      by_contra spills
      have := second.recorded (by simpa using spills)
      simp [this] at exact''
    rw [List.append_assoc, second.all exact'', first.all exact']
  recorded spills := second.recorded (first.recorded spills)
  lost := second.lost.trans first.lost

end Serial.Moves

/-- After the first use that found the chip. -/
structure Serial.Open (s : Serial) : Prop where
  ready : s.initialized = true
  setUp : s.uart.SetUp

/-- Set up, or about to be: `dbg_serial_init` makes ten accesses. -/
structure Serial.Sound (s : Serial) : Prop where
  setUp : s.initialized = true → s.uart.SetUp
  plain : s.initialized = false → s.uart.divisorAccess = false
  quiet : s.initialized = false → s.uart.Quiet 10

theorem Serial.Open.sound {s : Serial} (h : s.Open) : s.Sound :=
  ⟨fun _ => h.setUp, fun unused => by simp [h.ready] at unused,
    fun unused => by simp [h.ready] at unused⟩

section Moves

variable {chip : Chip} {s : Serial} {E : Fault → Serial → Prop}

theorem wp_outb {reg : Nat} {v : Byte} {Q : Unit → Serial → Prop} :
    wp (outb chip reg v) Q E s ↔ Q () { s with uart := s.uart.out chip reg v } := Iff.rfl

theorem wp_inb {reg : Nat} {Q : Byte → Serial → Prop} :
    wp (inb chip reg) Q E s ↔
      Q ((s.uart.wait chip).read reg).1 { s with uart := ((s.uart.wait chip).read reg).2 } :=
  Iff.rfl

theorem wp_dbgSerialInit {Q : Int → Serial → Prop} (h : s.initialized = false) :
    wp (dbgSerialInit chip) Q E s ↔
      if (((s.uart.tested chip).wait chip).read 0).1 = 0xAE then
        Q 0
          { uart := (((s.uart.tested chip).wait chip).read 0).2.out chip 4 0x0F
            initialized := true }
      else
        Q (-ENODEV) { s with uart := (((s.uart.tested chip).wait chip).read 0).2 } := by
  simp only [dbgSerialInit, wp_bind, wp_get, h, Bool.false_eq_true, if_false, wp_outb, wp_inb]
  change wp (if (((s.uart.tested chip).wait chip).read 0).1 ≠ 0xAE then _ else _) Q E _ ↔ _
  rw [wp_ite]
  by_cases test : (((s.uart.tested chip).wait chip).read 0).1 = 0xAE
  · simp only [test, ne_eq, not_true_eq_false, not_false_eq_true, true_implies, false_implies,
      true_and, if_true, wp_bind, wp_outb, wp_modify, wp_pure]
    rfl
  · simp only [test, ne_eq, not_false_eq_true, not_true_eq_false, true_implies, false_implies,
      and_true, if_false, wp_pure]
    rfl

theorem ready_spec (works : chip.Works) (sound : s.Sound) :
    wp (dbgSerialReady chip) (fun ready s' => ready = true ∧ s'.Open ∧ s.Moves [] [] s') E s := by
  simp only [dbgSerialReady, wp_bind, wp_get, wp_ite, wp_pure]
  refine ⟨fun ready => ⟨trivial, ⟨ready, sound.setUp ready⟩, .refl s⟩, fun unready => ?_⟩
  have unused : s.initialized = false := by simpa using unready
  have plain := sound.plain unused
  have quiet := sound.quiet unused
  rw [wp_dbgSerialInit unused, if_pos ((test_iff plain quiet).mpr works),
    tested_works plain quiet works]
  refine ⟨by decide, ⟨rfl, ⟨rfl, rfl, rfl, rfl, rfl, rfl⟩⟩, ?_⟩
  have same : s.stream = s.uart.coming.flatten := by simp [Serial.stream, unused]
  -- nothing came in during the test
  have stream' : [] ++ (s.uart.coming.drop 10).flatten = s.stream := quiet.stream.trans same.symm
  refine ⟨(List.append_nil _).symm, ?_, fun _ => stream', id, rfl⟩
  exact (congrArg (List.Sublist · s.stream) stream').mpr (List.Sublist.refl _)

/-- What comes in at once is kept, but for what the chip has no room for. -/
theorem receiveAll_eq (chip : Chip) (batch : List Byte) (u : Uart) :
    ∃ kept spilt, batch.foldl (Uart.receive chip) u =
        { u with received := u.received ++ kept, overrun := spilt } ∧
      kept.Sublist batch ∧ (spilt = false → kept = batch) ∧ (u.overrun = true → spilt = true) := by
  induction batch generalizing u with
  | nil => exact ⟨[], u.overrun, by simp, List.Sublist.refl _, fun _ => rfl, id⟩
  | cons c batch ih =>
    rw [List.foldl_cons]
    obtain ⟨kept, spilt, run, sub, all, recorded⟩ := ih (u.receive chip c)
    rw [run]
    by_cases room : u.received.length < chip.room
    · rw [Uart.receive, if_pos room] at recorded ⊢
      refine ⟨c :: kept, spilt, by simp, sub.cons_cons c, fun h => by rw [all h], recorded⟩
    · rw [Uart.receive, if_neg room] at recorded ⊢
      have overrun : spilt = true := recorded rfl
      exact ⟨kept, spilt, rfl, sub.cons c, by simp [overrun], fun _ => overrun⟩

/-- Between one access and the next. -/
theorem wait_moves (chip : Chip) (ready : s.Open) :
    Serial.Open { s with uart := s.uart.wait chip } ∧
      s.Moves [] [] { s with uart := s.uart.wait chip } ∧
      (s.uart.wait chip).busy = s.uart.busy - 1 ∧
      (s.uart.wait chip).coming = s.uart.coming.tail ∧
      (s.uart.received ≠ [] → (s.uart.wait chip).received ≠ []) := by
  have setUp := ready.setUp
  obtain ⟨kept, spilt, run, sub, all, recorded⟩ := receiveAll_eq chip
    (s.uart.coming.headD []) { s.uart with busy := s.uart.busy - 1, coming := s.uart.coming.tail }
  have waited : s.uart.wait chip =
      { s.uart with
        busy := s.uart.busy - 1, coming := s.uart.coming.tail
        received := s.uart.received ++ kept, overrun := spilt } := by
    rw [Uart.wait, setUp.hears, if_neg (by simp)]
    exact run
  have stream : s.stream =
      s.uart.received ++ (s.uart.coming.headD [] ++ s.uart.coming.tail.flatten) := by
    rw [Serial.stream, ready.ready, if_pos rfl]
    cases s.uart.coming with
    | nil => rfl
    | cons batch coming => rfl
  have stream' : Serial.stream { s with uart := s.uart.wait chip } =
      s.uart.received ++ (kept ++ s.uart.coming.tail.flatten) := by
    rw [Serial.stream, waited]
    simp [ready.ready]
  refine ⟨⟨ready.ready, ?_⟩, ⟨by simp [waited], ?_, fun exact' => ?_, fun h => ?_, by simp [waited]⟩,
    by rw [waited], by rw [waited], fun some => ?_⟩
  · rw [waited]
    exact setUp.moved ..
  · rw [stream', stream]
    exact (sub.append_right _).append_left _
  · have none : spilt = false := by simpa [waited] using exact'
    rw [stream', stream, all none]
    rfl
  · simpa [waited] using recorded h
  · rw [waited]
    exact List.append_ne_nil_of_left_ne_nil some kept

theorem waitTxEmpty_spec (fuel : Nat) (h : s.uart.busy < fuel) (ready : s.Open) :
    wp (waitTxEmpty chip fuel)
      (fun _ s' => s'.uart.busy = 0 ∧ s'.Open ∧ s.Moves [] [] s') E s := by
  induction fuel generalizing s with
  | zero => omega
  | succ fuel ih =>
    obtain ⟨ready', moves, busy', -, -⟩ := wait_moves chip ready
    simp only [waitTxEmpty, dbgSerialIsTxEmpty, wp_bind, wp_inb, wp_pure, Uart.read, status_tx,
      wp_ite, decide_eq_true_eq]
    refine ⟨fun idle => ⟨idle, ready', moves⟩, fun busy => ?_⟩
    refine wp_mono (ih (by simp only; omega) ready') ?_ (fun _ _ he => he)
    rintro _ s' ⟨idle, ready'', moves'⟩
    exact ⟨idle, ready'', moves.trans moves'⟩

theorem putWhenEmpty_spec (c : Byte) (ready : s.Open) :
    wp (putWhenEmpty chip c) (fun _ s' => s'.Open ∧ s.Moves [] [c] s') E s := by
  simp only [putWhenEmpty, wp_bind, wp_get, wp_outb]
  refine wp_mono (waitTxEmpty_spec _ (Nat.lt_succ_self _) ready) ?_ (fun _ _ he => he)
  rintro _ s₁ ⟨idle, open₁, moves₁⟩
  obtain ⟨⟨ready₂, setUp₂⟩, moves₂, busy₂, -, -⟩ := wait_moves chip open₁
  have written : s₁.uart.out chip 0 c =
      { s₁.uart.wait chip with
        busy := chip.delay (s₁.uart.wait chip).written
        written := (s₁.uart.wait chip).written + 1
        wire := (s₁.uart.wait chip).wire ++ [c] } := by
    simp [Uart.out, Uart.write, Uart.transmit, setUp₂.plain, setUp₂.hears, busy₂, idle]
  rw [written]
  refine ⟨⟨ready₂, setUp₂.moved ..⟩, ?_⟩
  exact moves₁.trans (moves₂.trans ⟨rfl, List.Sublist.refl _, fun _ => rfl, id, rfl⟩)

theorem dbgSerialReady_ready (ready : s.Open) : dbgSerialReady chip s = .ok true s := by
  simp only [dbgSerialReady, get_bind, ready.ready, if_true]
  rfl

theorem dbgSerialPutc_spec (c : Byte) (works : chip.Works) (sound : s.Sound) :
    wp (dbgSerialPutc chip c) (fun _ s' => s'.Open ∧ s.Moves [] (withReturn c) s') E s := by
  rw [dbgSerialPutc, wp_bind]
  refine wp_mono (ready_spec works sound) ?_ (fun _ _ he => he)
  rintro _ s₁ ⟨rfl, ready₁, moves₁⟩
  rw [if_pos rfl, wp_ite, withReturn]
  refine ⟨fun newline => ?_, fun other => ?_⟩
  · -- the carriage return in front
    rw [if_pos newline, dbgSerialPutOther, wp_bind, wp_bind]
    refine wp_of_ok (dbgSerialReady_ready ready₁) ?_
    rw [if_pos rfl]
    refine wp_mono (putWhenEmpty_spec _ ready₁) ?_ (fun _ _ he => he)
    rintro _ s₂ ⟨ready₂, moves₂⟩
    refine wp_mono (putWhenEmpty_spec _ ready₂) ?_ (fun _ _ he => he)
    rintro _ s₃ ⟨ready₃, moves₃⟩
    exact ⟨ready₃, moves₁.trans (moves₂.trans moves₃)⟩
  · rw [if_neg other]
    refine wp_mono (putWhenEmpty_spec _ ready₁) ?_ (fun _ _ he => he)
    rintro _ s₂ ⟨ready₂, moves₂⟩
    exact ⟨ready₂, moves₁.trans moves₂⟩

/-- The wait ends with a byte, or when there is none left to come. -/
theorem waitRxAvail_spec (fuel : Nat) (h : s.uart.coming.length ≤ fuel)
    (some : s.uart.received ≠ [] → 0 < fuel) (ready : s.Open) :
    wp (waitRxAvail chip fuel)
      (fun _ s' => s'.uart.received ≠ [] ∧ s'.Open ∧ s.Moves [] [] s')
      (fun e s' => e = .endless ∧ s'.stream = [] ∧ s'.Open ∧ s.Moves [] [] s') s := by
  induction fuel generalizing s with
  | zero =>
    have nothing : s.uart.received = [] := by
      by_contra received
      exact absurd (some received) (by omega)
    have coming : s.uart.coming = [] := List.eq_nil_of_length_eq_zero (by omega)
    refine ⟨rfl, ?_, ready, .refl s⟩
    simp [Serial.stream, nothing, coming]
  | succ fuel ih =>
    obtain ⟨ready', moves, -, coming', -⟩ := wait_moves chip ready
    simp only [waitRxAvail, dbgSerialIsRxAvail, wp_bind, wp_inb, wp_pure, Uart.read, status_rx,
      wp_ite, decide_eq_true_eq]
    refine ⟨fun avail => ⟨avail, ready', moves⟩, fun nothing => ?_⟩
    have fewer : (s.uart.wait chip).coming.length ≤ fuel := by
      rw [coming', List.length_tail]
      omega
    refine wp_mono (ih fewer (fun received => absurd received nothing) ready') ?_ ?_
    · rintro _ s' ⟨avail, ready'', moves'⟩
      exact ⟨avail, ready'', moves.trans moves'⟩
    · rintro e s' ⟨endless, empty, ready'', moves'⟩
      exact ⟨endless, empty, ready'', moves.trans moves'⟩

theorem dbgSerialGetc_spec (works : chip.Works) (sound : s.Sound) :
    wp (dbgSerialGetc chip) (fun c s' => s'.Open ∧ s.Moves [c] [] s')
      (fun e s' => e = .endless ∧ s'.stream = [] ∧ s'.Open ∧ s.Moves [] [] s') s := by
  rw [dbgSerialGetc, wp_bind]
  refine wp_mono (ready_spec works sound) ?_ (fun _ _ he => he)
  rintro _ s₁ ⟨rfl, ready₁, moves₁⟩
  simp only [if_true, wp_bind, wp_get, wp_inb]
  refine wp_mono (waitRxAvail_spec _ (Nat.le_succ _) (fun _ => Nat.succ_pos _) ready₁) ?_ ?_
  · rintro _ s₂ ⟨avail, open₂, moves₂⟩
    obtain ⟨⟨ready₃, setUp₃⟩, moves₃, -, -, still⟩ := wait_moves chip open₂
    cases received : (s₂.uart.wait chip).received with
    | nil => exact absurd received (still avail)
    | cons c rest =>
      have read : (s₂.uart.wait chip).read 0 =
          (c, { s₂.uart.wait chip with received := rest }) := by
        simp [Uart.read, setUp₃.plain, received]
      rw [read]
      refine ⟨⟨ready₃, setUp₃.moved ..⟩, ?_⟩
      have front : c :: Serial.stream
          { s₂ with uart := { s₂.uart.wait chip with received := rest } } =
            Serial.stream { s₂ with uart := s₂.uart.wait chip } := by
        simp [Serial.stream, open₂.ready, received]
      refine moves₁.trans (moves₂.trans (moves₃.trans
        ⟨(List.append_nil _).symm, ?_, fun _ => front, id, rfl⟩))
      rw [List.singleton_append, front]
  · rintro e s₂ ⟨endless, empty, ready₂, moves₂⟩
    exact ⟨endless, empty, ready₂, moves₁.trans moves₂⟩

/-- A port whose chip works is a line.  Every byte goes out once, in order and with a carriage
return in front of each line feed; the bytes that come in are read in order; and a call waits for
ever only when nothing is left to come. -/
theorem runSerial_line (works : chip.Works) (ops : List SerialOp) (sound : s.Sound) :
    wp (runSerial chip ops)
      (fun cs s' => cs.length = gets ops ∧ s'.Sound ∧ s.Moves cs (texts ops) s')
      (fun e s' => e = .endless ∧ s'.stream = [] ∧ ∃ cs text, cs.length < gets ops ∧
        text <+: texts ops ∧ s.Moves cs text s') s := by
  induction ops generalizing s with
  | nil => exact ⟨rfl, sound, .refl s⟩
  | cons op ops ih =>
    cases op with
    | put c =>
      simp only [runSerial, wp_bind, gets, texts]
      refine wp_mono (dbgSerialPutc_spec c works sound) ?_ (fun _ _ he => he)
      rintro _ s₁ ⟨ready₁, moves₁⟩
      refine wp_mono (ih ready₁.sound) ?_ ?_
      · rintro cs s₂ ⟨count, sound₂, moves₂⟩
        exact ⟨count, sound₂, moves₁.trans moves₂⟩
      · rintro e s₂ ⟨endless, empty, cs, text, fewer, front, moves₂⟩
        exact ⟨endless, empty, cs, _, fewer, List.prefix_append_right_inj _ |>.mpr front,
          moves₁.trans moves₂⟩
    | get =>
      simp only [runSerial, wp_bind, wp_pure, gets, texts]
      refine wp_mono (dbgSerialGetc_spec works sound) ?_ ?_
      · rintro c s₁ ⟨ready₁, moves₁⟩
        refine wp_mono (ih ready₁.sound) ?_ ?_
        · rintro cs s₂ ⟨count, sound₂, moves₂⟩
          exact ⟨by simp [count], sound₂, moves₁.trans moves₂⟩
        · rintro e s₂ ⟨endless, empty, cs, text, fewer, front, moves₂⟩
          exact ⟨endless, empty, c :: cs, text, by simpa using fewer, front, moves₁.trans moves₂⟩
      · rintro e s₁ ⟨endless, empty, -, moves₁⟩
        exact ⟨endless, empty, [], [], by simp, List.nil_prefix, moves₁⟩

end Moves

/-- A chip with a receive queue of 16 bytes, that is busy for three accesses after a byte. -/
def pc16550 : Chip := ⟨id, fun _ => 3, 16⟩

/-- The port at power-on, and what comes in when the ten accesses of `dbg_serial_init` are over. -/
def powered (coming : List (List Byte)) : Serial where
  uart := ⟨0, 12, 0, 0, 0, 0, [chr '?'], List.replicate 10 [] ++ coming, 0, 0, [], false, false⟩
  initialized := false

theorem pc16550_works : pc16550.Works := ⟨rfl, by decide⟩

theorem powered_sound (coming : List (List Byte)) : (powered coming).Sound where
  setUp ready := by simp [powered] at ready
  plain _ := by simp [powered, Uart.divisorAccess]
  quiet _ k hk := by
    rw [powered, List.getD_eq_getElem?_getD, List.getElem?_append_left (by simpa using hk),
      List.getElem?_replicate_of_lt hk]
    rfl

theorem runSerial_line_prompt :
    wp (runSerial pc16550 [.put (chr '>'), .get, .put (chr '\n')])
      (fun cs s' => cs.length = 1 ∧ s'.Sound ∧
        (powered [[], [], [chr 'c', 13]]).Moves cs [chr '>', chr '\r', chr '\n'] s')
      (fun e s' => e = .endless ∧ s'.stream = [] ∧ ∃ cs text, cs.length < 1 ∧
        text <+: [chr '>', chr '\r', chr '\n'] ∧
        (powered [[], [], [chr 'c', 13]]).Moves cs text s')
      (powered [[], [], [chr 'c', 13]]) := by
  have sound := powered_sound [[], [], [chr 'c', 13]]
  -- the port stays a name, so that the calls are not run
  generalize powered [[], [], [chr 'c', 13]] = s at sound ⊢
  exact runSerial_line pc16550_works [.put (chr '>'), .get, .put (chr '\n')] sound

/-! ## A chip that does not work -/

/-- The driver has found no chip in `n` attempts, and sent no more than `wire`. -/
structure Serial.Absent (s : Serial) (wire : List Byte) (n : Nat) : Prop where
  unused : s.initialized = false
  plain : s.uart.divisorAccess = false
  silent : s.uart.coming.flatten = []
  sent : s.uart.wire = wire
  tried : s.uart.written = n

section Absent

variable {chip : Chip} {s : Serial} {wire : List Byte} {n : Nat} {E : Fault → Serial → Prop}

theorem Serial.Absent.quiet (absent : s.Absent wire n) (m : Nat) : s.uart.Quiet m := by
  intro k _
  by_cases h : k < s.uart.coming.length
  · rw [List.getD_eq_getElem?_getD, List.getElem?_eq_getElem h]
    exact List.flatten_eq_nil_iff.mp absent.silent _ (List.getElem_mem h)
  · rw [List.getD_eq_getElem?_getD, List.getElem?_eq_none (Nat.le_of_not_lt h)]
    rfl

/-- Another attempt: the byte of the test goes out once more, and does not come back. -/
theorem ready_absent (broken : ¬chip.Works) (absent : s.Absent wire n) :
    wp (dbgSerialReady chip) (fun ready s' => ready = false ∧ s'.Absent wire (n + 1)) E s := by
  have quiet := absent.quiet 10
  simp only [dbgSerialReady, wp_bind, wp_get, absent.unused, Bool.false_eq_true, if_false]
  rw [wp_dbgSerialInit absent.unused, if_neg (mt (test_iff absent.plain quiet).mp broken),
    tested_read absent.plain quiet]
  refine ⟨by decide, absent.unused, by simp [Uart.divisorAccess], ?_, absent.sent,
    congrArg (· + 1) absent.tried⟩
  exact (absent.quiet 9).stream.trans absent.silent

theorem dbgSerialGetc_absent (broken : ¬chip.Works) (absent : s.Absent wire n) :
    wp (dbgSerialGetc chip) (fun c s' => c = 0 ∧ s'.Absent wire (n + 1)) E s := by
  rw [dbgSerialGetc, wp_bind]
  refine wp_mono (ready_absent broken absent) ?_ (fun _ _ he => he)
  rintro _ s₁ ⟨rfl, absent₁⟩
  exact ⟨rfl, absent₁⟩

theorem dbgSerialPutc_absent (c : Byte) (broken : ¬chip.Works) (absent : s.Absent wire n) :
    wp (dbgSerialPutc chip c) (fun _ s' => s'.Absent wire (n + 1)) E s := by
  rw [dbgSerialPutc, wp_bind]
  refine wp_mono (ready_absent broken absent) ?_ (fun _ _ he => he)
  rintro _ s₁ ⟨rfl, absent₁⟩
  exact absent₁

/-- Where the test fails, every call tries it again, and once.  Nothing is ever sent, no call
waits, and every byte that is asked for is a zero. -/
theorem runSerial_absent (broken : ¬chip.Works) (ops : List SerialOp) (absent : s.Absent wire n) :
    wp (runSerial chip ops)
      (fun cs s' => cs = List.replicate (gets ops) 0 ∧ s'.Absent wire (n + ops.length))
      (fun _ _ => False) s := by
  induction ops generalizing s n with
  | nil => exact ⟨rfl, absent⟩
  | cons op ops ih =>
    have count : n + (op :: ops).length = n + 1 + ops.length := by
      rw [List.length_cons]
      omega
    rw [count]
    cases op with
    | put c =>
      simp only [runSerial, wp_bind, gets]
      refine wp_mono (dbgSerialPutc_absent c broken absent) ?_ (fun _ _ he => he)
      intro _ s₁ absent₁
      exact ih absent₁
    | get =>
      simp only [runSerial, wp_bind, wp_pure, gets]
      refine wp_mono (dbgSerialGetc_absent broken absent) ?_ (fun _ _ he => he)
      rintro _ s₁ ⟨rfl, absent₁⟩
      refine wp_mono (ih absent₁) ?_ (fun _ _ he => he)
      rintro cs s₂ ⟨rfl, absent₂⟩
      exact ⟨rfl, absent₂⟩

end Absent

theorem powered_absent : (powered []).Absent [] 0 :=
  ⟨rfl, rfl, rfl, rfl, rfl⟩

theorem runSerial_absent_prompt :
    wp (runSerial ⟨fun _ => 0xFF, fun _ => 0, 16⟩ [.put (chr '>'), .get])
      (fun cs s' => cs = [0] ∧ s'.Absent [] 2) (fun _ _ => False) (powered []) := by
  have absent := powered_absent
  generalize powered [] = s at absent ⊢
  exact runSerial_absent (fun works => by cases works.1) [.put (chr '>'), .get] absent

end MidnightOS.Debug
