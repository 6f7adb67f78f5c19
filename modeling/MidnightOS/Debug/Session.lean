import MidnightOS.Debug.Stale
import MidnightOS.Debug.Terminal
import MidnightOS.Lib.Simulation

/-! # A debug session (`dbg_main`)

`dbg_main` talks to a terminal, which is the serial port or, as an operator sees it, a line with
the bytes that were typed.  It does the same on both.
-/

namespace MidnightOS.Debug

open MidnightOS.Lib
open MidnightOS.Arch (U64 IntInfo)

/-! ## The source -/

/-- `dbg_serial_putc`, and `dbg_getcmd` with the buffer and `*size`. -/
structure Terminal (τ : Type) where
  put : Byte → EStateM Fault τ Unit
  getcmd : (cmd : List Byte) → (size : Nat) → EStateM Fault τ (List Byte × Nat)

/-- What `dbg_main` keeps and changes: the debugger, `stepping` and what was interrupted. -/
structure Core (σ : Type) where
  debugger : Debugger σ
  stepping : Bool
  dr6 : U64
  info : IntInfo

structure Console (τ σ : Type) where
  terminal : τ
  core : Core σ

abbrev ConsoleM (τ σ : Type) := EStateM Fault (Console τ σ)

section Source

variable {τ σ α : Type}

def getCore : ConsoleM τ σ (Core σ) := do
  let c ← get
  return c.core

def setCore (core : Core σ) : ConsoleM τ σ Unit := modify fun c => { c with core }

def onTerminal (x : EStateM Fault τ α) : ConsoleM τ σ α :=
  focus Console.terminal (fun terminal c => { c with terminal }) x

def putText (term : Terminal τ) : List Byte → EStateM Fault τ Unit
  | [] => pure ()
  | c :: text => do
    term.put c
    putText term text

variable [DecidableEq σ]

/-- The characters that the sink `port` gets. -/
def heard (port : σ) (calls : List (Call σ)) : List Byte :=
  calls.filterMap fun call => if call.sink = port then some call.char else none

/-- `dbg_msg`, and what the terminal gets of it. -/
def say (term : Terminal τ) (port : σ) (fmt : String) (args : List Arg) : ConsoleM τ σ Unit := do
  let core ← getCore
  match dbgMsg (.literal fmt) args core.debugger.session.fresh.io with
  | .ok _ io => do
    let session : Session σ := { core.debugger.session with io }
    setCore { core with debugger := { core.debugger with session := session.fresh } }
    onTerminal (putText term (heard port io.sent))
  | .error e io => do
    onTerminal (putText term (heard port io.sent))
    throw e

def readLine (term : Terminal τ) : ConsoleM τ σ Nat := do
  let core ← getCore
  let (cmd, size) ← onTerminal (term.getcmd core.debugger.cmdBuffer 256)
  setCore { core with debugger := { core.debugger with cmdBuffer := cmd } }
  return size

/-- `dbg_parsecmd` and `dbg_exec`. -/
def execLine (term : Terminal τ) (port : σ) (disasm : Disasm) (mem : U64 → Byte) :
    ConsoleM τ σ Code := do
  let core ← getCore
  let debugger := { core.debugger with session := core.debugger.session.fresh }
  match runLine disasm ⟨core.info, mem⟩ debugger with
  | .ok (code, d) => do
    setCore { core with debugger := { d with session := d.session.fresh } }
    onTerminal (putText term (heard port d.session.io.sent))
    return code
  | .error e => throw e

/-- The number of the breakpoint that `dr6` shows, and its address. -/
def breakCondition (dr6 : U64) (drs : DebugRegs) : Option (BitVec 32 × U64) :=
  if dr6 &&& 0xF = 0b0001 then some (0, drs.dr0)
  else if dr6 &&& 0xF = 0b0010 then some (1, drs.dr1)
  else if dr6 &&& 0xF = 0b0100 then some (2, drs.dr2)
  else if dr6 &&& 0xF = 0b1000 then some (3, drs.dr3)
  else none

/-- The trap flag of the interrupted program. -/
def trapFlag : U64 := 1 <<< 8

def IntInfo.withRflags (info : IntInfo) (rflags : U64) : IntInfo :=
  { info with frame := { info.frame with rflags } }

/-- `while (1)`, for `fuel` rounds. -/
def commandLoop (term : Terminal τ) (port : σ) (disasm : Disasm) (mem : U64 → Byte) :
    (fuel : Nat) → ConsoleM τ σ Unit
  | 0 => throw .endless
  | fuel + 1 => do
    say term port "/> " []
    let size ← readLine term
    if size = 0 then
      commandLoop term port disasm mem fuel
    else do
      match ← execLine term port disasm mem with
      | .unknownCmd =>
        say term port "Error: Unknown command\n" []
        commandLoop term port disasm mem fuel
      | .invalidParams =>
        say term port "Error: Invalid parameter\n" []
        commandLoop term port disasm mem fuel
      | .continue => return ()
      | .step =>
        let core ← getCore
        setCore { core with
          info := IntInfo.withRflags core.info (core.info.frame.rflags ||| trapFlag)
          stepping := true }
      | .success => commandLoop term port disasm mem fuel

/-- The head of `dbg_main`: a breakpoint is announced, a single step ended. -/
def announce (term : Terminal τ) (port : σ) : ConsoleM τ σ Unit := do
  let core ← getCore
  if core.stepping then
    setCore { core with
      info := IntInfo.withRflags core.info (core.info.frame.rflags &&& ~~~trapFlag) }
  else
    match breakCondition core.dr6 core.debugger.session.drs with
    | some (n, dr) =>
      say term port "\nBreakpoint %d at address 0x%lx\n" [.int n, .long dr]
    | none => return ()

def dbgMain (term : Terminal τ) (port : σ) (disasm : Disasm) (mem : U64 → Byte) (fuel : Nat) :
    ConsoleM τ σ Unit := do
  announce term port
  let core ← getCore
  match disasm mem core.info.frame.rip with
  | none => throw .store
  | some inst => do
    say term port "0x%lx: %s\n" [.long core.info.frame.rip, .string inst.text]
    let core ← getCore
    setCore { core with stepping := false }
    commandLoop term port disasm mem fuel

end Source

/-! ## Sessions on two terminals -/

/-- The terminals are related, and nothing else differs. -/
def SameCore {τ τ' σ : Type} (R : τ → τ' → Prop) (c : Console τ σ) (c' : Console τ' σ) : Prop :=
  R c.terminal c'.terminal ∧ c.core = c'.core

structure Terminal.Follows {τ τ' : Type} (B : τ → Prop) (R : τ → τ' → Prop) (term : Terminal τ)
    (term' : Terminal τ') : Prop where
  put : ∀ c, Lib.Follows B R (term.put c) (term'.put c)
  getcmd : ∀ cmd size, Lib.Follows B R (term.getcmd cmd size) (term'.getcmd cmd size)

section Follows

variable {τ τ' σ α : Type} {B : τ → Prop} {R : τ → τ' → Prop} {term : Terminal τ}
  {term' : Terminal τ'}

/-- A program on the console, and the same on another one. -/
abbrev FollowsOn (B : τ → Prop) (R : τ → τ' → Prop) (x : ConsoleM τ σ α) (y : ConsoleM τ' σ α) :
    Prop :=
  Follows (fun c => B c.terminal) (SameCore R) x y

theorem follows_getCore : FollowsOn B R (getCore : ConsoleM τ σ (Core σ)) getCore where
  latches _ h := h
  follows c c' h := by
    refine .inr ⟨c', ?_, h⟩
    rw [h.2]
    rfl

theorem follows_setCore (core : Core σ) : FollowsOn B R (setCore core) (setCore core) where
  latches _ h := h
  follows _ c' h := .inr ⟨{ c' with core }, rfl, h.1, rfl⟩

theorem follows_onTerminal {x : EStateM Fault τ α} {y : EStateM Fault τ' α}
    (h : Follows B R x y) :
    FollowsOn B R (onTerminal x : ConsoleM τ σ α) (onTerminal y) :=
  Follows.focus (fun _ _ h => h.1) (fun _ _ _ _ h hR => ⟨hR, h.2⟩) (fun _ _ => rfl) h

theorem follows_putText (h : term.Follows B R term') (text : List Byte) :
    Follows B R (putText term text) (putText term' text) := by
  induction text with
  | nil => exact Follows.pure ()
  | cons c text ih => exact (h.put c).bind fun _ => ih

theorem follows_readLine (h : term.Follows B R term') :
    FollowsOn B R (readLine term : ConsoleM τ σ Nat) (readLine term') := by
  refine follows_getCore.bind fun core => ?_
  refine (follows_onTerminal (h.getcmd _ _)).bind fun out => ?_
  exact (follows_setCore _).bind fun _ => Follows.pure out.2

variable [DecidableEq σ] {port : σ} {disasm : Disasm} {mem : U64 → Byte}

theorem follows_say (h : term.Follows B R term') (fmt : String) (args : List Arg) :
    FollowsOn B R (say term port fmt args) (say term' port fmt args) := by
  refine follows_getCore.bind fun core => ?_
  cases dbgMsg (.literal fmt) args core.debugger.session.fresh.io with
  | ok n io =>
    refine (follows_setCore _).bind fun _ => ?_
    exact follows_onTerminal (follows_putText h _)
  | error e io => exact (follows_onTerminal (follows_putText h _)).bind fun _ => Follows.throw e

theorem follows_execLine (h : term.Follows B R term') :
    FollowsOn B R (execLine term port disasm mem) (execLine term' port disasm mem) := by
  refine follows_getCore.bind fun core => ?_
  dsimp only
  cases runLine disasm ⟨core.info, mem⟩
      { core.debugger with session := core.debugger.session.fresh } with
  | ok result =>
    refine (follows_setCore _).bind fun _ => ?_
    exact (follows_onTerminal (follows_putText h _)).bind fun _ => Follows.pure result.1
  | error e => exact Follows.throw e

theorem follows_commandLoop (h : term.Follows B R term') (fuel : Nat) :
    FollowsOn B R (commandLoop term port disasm mem fuel)
      (commandLoop term' port disasm mem fuel) := by
  induction fuel with
  | zero => exact Follows.throw Fault.endless
  | succ fuel ih =>
    refine (follows_say h _ _).bind fun _ => (follows_readLine h).bind fun size => ?_
    refine Follows.ite ih ((follows_execLine h).bind fun code => ?_)
    cases code with
    | success => exact ih
    | «continue» => exact Follows.pure ()
    | step => exact follows_getCore.bind fun core => follows_setCore _
    | unknownCmd => exact (follows_say h _ _).bind fun _ => ih
    | invalidParams => exact (follows_say h _ _).bind fun _ => ih

theorem follows_announce (h : term.Follows B R term') :
    FollowsOn B R (announce term port) (announce term' port) := by
  refine follows_getCore.bind fun core => Follows.ite (follows_setCore _) ?_
  cases breakCondition core.dr6 core.debugger.session.drs with
  | some shown => exact follows_say h _ _
  | none => exact Follows.pure ()

theorem follows_dbgMain (h : term.Follows B R term') (fuel : Nat) :
    FollowsOn B R (dbgMain term port disasm mem fuel) (dbgMain term' port disasm mem fuel) := by
  refine (follows_announce h).bind fun _ => follows_getCore.bind fun core => ?_
  cases disasm mem core.info.frame.rip with
  | none => exact Follows.throw Fault.store
  | some inst =>
    refine (follows_say h _ _).bind fun _ => follows_getCore.bind fun core => ?_
    exact (follows_setCore _).bind fun _ => follows_commandLoop h fuel

end Follows

/-! ## The port and the line -/

def portTerminal (chip : Chip) : Terminal Serial := ⟨dbgSerialPutc chip, dbgGetcmdOn chip⟩

/-- What was typed and not yet read, and all that is shown. -/
structure Line where
  queue : List Byte
  sent : List Byte

def lineTerminal : Terminal Line where
  put c := modify fun l => { l with sent := l.sent ++ withReturn c }
  getcmd cmd size := do
    let l ← get
    match dbgGetcmd l.queue cmd size with
    | some typed => do
      set (Line.mk typed.keys (l.sent ++ onLine typed.echo))
      return (typed.cmd, typed.size)
    | none => throw .endless

/-- The operator sees what the chip sent, and the debugger will see what is typed. -/
def Serial.ShowsAs (s : Serial) (l : Line) : Prop :=
  s.Sound ∧ s.stream = l.queue ∧ s.uart.wire = l.sent

def Serial.Overran (s : Serial) : Prop := s.Sound ∧ s.uart.overrun = true

section Port

variable {chip : Chip}

theorem follows_put (works : chip.Works) (c : Byte) :
    Follows Serial.Overran Serial.ShowsAs (dbgSerialPutc chip c) (lineTerminal.put c) where
  latches s h := by
    refine wp_mono (dbgSerialPutc_spec c works h.1) ?_ (fun _ _ he => he)
    rintro _ s' ⟨ready, moves⟩
    exact ⟨ready.sound, moves.recorded h.2⟩
  follows s l h := by
    obtain ⟨sound, queue, sent⟩ := h
    refine wp_mono (dbgSerialPutc_spec c works sound) ?_ (fun _ _ he => he)
    rintro _ s' ⟨ready, moves⟩
    cases all : s'.uart.overrun with
    | true => exact .inl ⟨ready.sound, all⟩
    | false =>
      refine .inr ⟨_, rfl, ready.sound, ?_, ?_⟩
      · exact (moves.all all).trans queue
      · rw [moves.wire, sent]

theorem lineTerminal_getcmd {l : Line} {cmd : List Byte} {size : Nat} {typed : Typed}
    (h : dbgGetcmd l.queue cmd size = some typed) :
    lineTerminal.getcmd cmd size l =
      .ok (typed.cmd, typed.size) ⟨typed.keys, l.sent ++ onLine typed.echo⟩ := by
  simp only [lineTerminal, get_bind, h]
  rfl

theorem lineTerminal_waits {l : Line} {cmd : List Byte} {size : Nat}
    (h : dbgGetcmd l.queue cmd size = none) :
    lineTerminal.getcmd cmd size l = .error .endless l := by
  simp only [lineTerminal, get_bind, h]
  rfl

theorem follows_getcmd (works : chip.Works) (cmd : List Byte) (size : Nat) :
    Follows Serial.Overran Serial.ShowsAs (dbgGetcmdOn chip cmd size)
      (lineTerminal.getcmd cmd size) where
  latches s h :=
    wp_mono (dbgGetcmdOn_typed works cmd size h.1)
      (fun _ _ h' => ⟨h'.1, h'.2.1 h.2⟩) (fun _ _ h' => ⟨h'.2.1, h'.2.2.1 h.2⟩)
  follows s l h := by
    obtain ⟨sound, queue, sent⟩ := h
    refine wp_mono (dbgGetcmdOn_typed works cmd size sound) ?_ ?_
    · rintro out s' ⟨sound', -, typed⟩
      cases all : s'.uart.overrun with
      | true => exact .inl ⟨sound', all⟩
      | false =>
        obtain ⟨text, wire, run⟩ := typed all
        rw [queue] at run
        refine .inr ⟨_, lineTerminal_getcmd run, sound', rfl, ?_⟩
        rw [wire, sent]
    · rintro e s' ⟨rfl, sound', -, waits⟩
      cases all : s'.uart.overrun with
      | true => exact .inl ⟨sound', all⟩
      | false =>
        have run := waits all
        rw [queue] at run
        exact .inr ⟨l, lineTerminal_waits run⟩

theorem follows_port (works : chip.Works) :
    (portTerminal chip).Follows Serial.Overran Serial.ShowsAs lineTerminal :=
  ⟨follows_put works, follows_getcmd works⟩

variable {σ : Type} [DecidableEq σ]

/-- A session at the port is a session on the line, unless the chip overruns.  It does not depend
on when the bytes come in or on how long the chip takes to send. -/
theorem dbgMain_port_as_line (works : chip.Works) (port : σ) (disasm : Disasm) (mem : U64 → Byte)
    (fuel : Nat) {c : Console Serial σ} (sound : c.terminal.Sound) :
    wp (dbgMain (portTerminal chip) port disasm mem fuel)
      (fun _ c' => c'.terminal.Overran ∨ ∃ c'' : Console Line σ,
        dbgMain lineTerminal port disasm mem fuel
          ⟨⟨c.terminal.stream, c.terminal.uart.wire⟩, c.core⟩ = .ok () c'' ∧
        c'.terminal.ShowsAs c''.terminal ∧ c'.core = c''.core)
      (fun e c' => c'.terminal.Overran ∨ ∃ c'' : Console Line σ,
        dbgMain lineTerminal port disasm mem fuel
          ⟨⟨c.terminal.stream, c.terminal.uart.wire⟩, c.core⟩ = .error e c'') c :=
  (follows_dbgMain (follows_port works) fuel).follows c _ ⟨⟨sound, rfl, rfl⟩, rfl⟩

end Port

/-- A disassembler that shows every byte as `nop`. -/
def nopDisasm : Disasm := fun _ a => some ⟨.literal "nop", a + 1, by decide⟩

/-- A program that stopped at `0x1000` for the first breakpoint, with the port as the only sink. -/
def stoppedConsole (coming : List (List Byte)) : Console Serial Unit :=
  ⟨powered coming, .boot serial ⟨0x1000, 0, 0, 0, 0x402⟩, false, 1, stopped.info⟩

theorem dbgMain_port_as_line_stopped :
    wp (dbgMain (portTerminal pc16550) () nopDisasm stopped.mem 4)
      (fun _ c' => c'.terminal.Overran ∨ ∃ c'' : Console Line Unit,
        dbgMain lineTerminal () nopDisasm stopped.mem 4
          ⟨⟨(stoppedConsole [[chr 'c'], [], [13]]).terminal.stream,
            (stoppedConsole [[chr 'c'], [], [13]]).terminal.uart.wire⟩,
            (stoppedConsole [[chr 'c'], [], [13]]).core⟩ = .ok () c'' ∧
        c'.terminal.ShowsAs c''.terminal ∧ c'.core = c''.core)
      (fun e c' => c'.terminal.Overran ∨ ∃ c'' : Console Line Unit,
        dbgMain lineTerminal () nopDisasm stopped.mem 4
          ⟨⟨(stoppedConsole [[chr 'c'], [], [13]]).terminal.stream,
            (stoppedConsole [[chr 'c'], [], [13]]).terminal.uart.wire⟩,
            (stoppedConsole [[chr 'c'], [], [13]]).core⟩ = .error e c'')
      (stoppedConsole [[chr 'c'], [], [13]]) := by
  have sound : (stoppedConsole [[chr 'c'], [], [13]]).terminal.Sound := powered_sound _
  -- the console stays a name, so that the session is not run
  generalize stoppedConsole [[chr 'c'], [], [13]] = c at sound ⊢
  exact dbgMain_port_as_line pc16550_works () nopDisasm stopped.mem 4 sound

end MidnightOS.Debug
