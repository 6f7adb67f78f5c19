import MidnightOS.Debug.Session

/-! # What an operator gets

The lines that are typed at the debugger are executed in order until one of them resumes the
program.
-/

namespace MidnightOS.Debug

open MidnightOS.Lib
open MidnightOS.Arch (U64 IntInfo)

/-! ## Lines -/

section Enter

variable {σ : Type}

def Core.enter (core : Core σ) (line : CString) : Core σ :=
  { core with
    debugger := { core.debugger with cmdBuffer := Debug.enter line core.debugger.cmdBuffer } }

theorem runLine_buffer {disasm : Disasm} {m : Machine} {d d' : Debugger σ} {code : Code}
    (run : runLine disasm m d = .ok (code, d')) : d'.cmdBuffer.length = d.cmdBuffer.length := by
  obtain ⟨parsed, parse, exec⟩ := except_bind_ok run
  cases result : dbgExec disasm m parsed.argc (argvOf parsed.buff parsed.argv) d.session with
  | ok code' session =>
    rw [result] at exec
    cases exec
    exact (parseLoop_lengths parse).1
  | error e session =>
    rw [result] at exec
    cases exec

end Enter

/-! ## Sessions, line by line -/

section Talk

variable {σ : Type} [DecidableEq σ]

/-- A message, with what the port gets of it. -/
def saidBy (port : σ) (fmt : String) (args : List Arg) (core : Core σ) :
    Option (List Byte × Core σ) :=
  match dbgMsg (.literal fmt) args core.debugger.session.fresh.io with
  | .ok _ io =>
    let session : Session σ := { core.debugger.session with io }
    some (heard port io.sent,
      { core with debugger := { core.debugger with session := session.fresh } })
  | .error _ _ => none

/-- The line in the buffer, with what the port gets. -/
def ranBy (port : σ) (disasm : Disasm) (mem : U64 → Byte) (core : Core σ) :
    Option (Code × List Byte × Core σ) :=
  match runLine disasm ⟨core.info, mem⟩
      { core.debugger with session := core.debugger.session.fresh } with
  | .ok (code, d) =>
    some (code, heard port d.session.io.sent,
      { core with debugger := { d with session := d.session.fresh } })
  | .error _ => none

/-- The program goes on, with the trap flag. -/
def Core.steps (core : Core σ) : Core σ :=
  { core with
    info := IntInfo.withRflags core.info (core.info.frame.rflags ||| trapFlag)
    stepping := true }

/-- A prompt, the line as it is echoed, and what it prints. -/
def answered (port : σ) (disasm : Disasm) (mem : U64 → Byte) (line : CString) (core : Core σ) :
    Option (Code × List Byte × Core σ) := do
  let (prompt, core₁) ← saidBy port "/> " [] core
  let (code, out, core₂) ← ranBy port disasm mem (core₁.enter line)
  return (code, prompt ++ (line.chars ++ [10]) ++ out, core₂)

/-- What the lines have printed, and the state when the program goes on.  That is after the last
of them, and none of them stops the debugger. -/
def talk (port : σ) (disasm : Disasm) (mem : U64 → Byte) :
    (lines : List CString) → Core σ → Option (List Byte × Core σ)
  | [], _ => none
  | line :: lines, core => do
    let (code, text, core) ← answered port disasm mem line core
    match code with
    | .continue => if lines = [] then some (text, core) else none
    | .step => if lines = [] then some (text, core.steps) else none
    | .success => do
      let (more, core) ← talk port disasm mem lines core
      return (text ++ more, core)
    | .unknownCmd => do
      let (complaint, core) ← saidBy port "Error: Unknown command\n" [] core
      let (more, core) ← talk port disasm mem lines core
      return (text ++ complaint ++ more, core)
    | .invalidParams => do
      let (complaint, core) ← saidBy port "Error: Invalid parameter\n" [] core
      let (more, core) ← talk port disasm mem lines core
      return (text ++ complaint ++ more, core)

/-- The breakpoint that is announced, or the end of a single step. -/
def announced (port : σ) (core : Core σ) : Option (List Byte × Core σ) :=
  if core.stepping then
    some ([], { core with
      info := IntInfo.withRflags core.info (core.info.frame.rflags &&& ~~~trapFlag) })
  else
    match breakCondition core.dr6 core.debugger.session.drs with
    | some (n, dr) => saidBy port "\nBreakpoint %d at address 0x%lx\n" [.int n, .long dr] core
    | none => some ([], core)

/-- What `dbg_main` shows before its first prompt. -/
def greet (port : σ) (disasm : Disasm) (mem : U64 → Byte) (core : Core σ) :
    Option (List Byte × Core σ) := do
  let (news, core) ← announced port core
  let inst ← disasm mem core.info.frame.rip
  let (place, core) ←
    saidBy port "0x%lx: %s\n" [.long core.info.frame.rip, .string inst.text] core
  return (news ++ place, { core with stepping := false })

/-! ## On the line -/

variable {port : σ} {disasm : Disasm} {mem : U64 → Byte} {l : Line} {core core' : Core σ}
  {text : List Byte}

theorem saidBy_buffer {fmt : String} {args : List Arg}
    (said : saidBy port fmt args core = some (text, core')) :
    core'.debugger.cmdBuffer = core.debugger.cmdBuffer := by
  unfold saidBy at said
  split at said
  · obtain ⟨-, rfl⟩ := Prod.mk.inj (Option.some.inj said)
    rfl
  · cases said

theorem saidBy_room {fmt : String} {args : List Arg}
    (said : saidBy port fmt args core = some (text, core')) {n : Nat}
    (room : core.debugger.cmdBuffer.length = n) : core'.debugger.cmdBuffer.length = n := by
  rw [saidBy_buffer said]
  exact room

theorem ranBy_buffer {code : Code} (ran : ranBy port disasm mem core = some (code, text, core')) :
    core'.debugger.cmdBuffer.length = core.debugger.cmdBuffer.length := by
  unfold ranBy at ran
  split at ran
  · next code' d run =>
    cases ran
    have same := runLine_buffer run
    exact same
  · cases ran

theorem commandLoop_round {τ : Type} {term : Terminal τ} {fuel size : Nat}
    {c c₁ c₂ c₃ : Console τ σ} {code : Code} (asks : say term port "/> " [] c = .ok () c₁)
    (reads : readLine term c₁ = .ok (size + 1) c₂)
    (runs : execLine term port disasm mem c₂ = .ok code c₃) :
    commandLoop term port disasm mem (fuel + 1) c =
      (match code with
      | .unknownCmd => do
        say term port "Error: Unknown command\n" []
        commandLoop term port disasm mem fuel
      | .invalidParams => do
        say term port "Error: Invalid parameter\n" []
        commandLoop term port disasm mem fuel
      | .continue => return ()
      | .step => do
        let core ← getCore
        setCore { core with
          info := IntInfo.withRflags core.info (core.info.frame.rflags ||| trapFlag)
          stepping := true }
      | .success => commandLoop term port disasm mem fuel) c₃ := by
  rw [commandLoop, bind_of_ok asks, bind_of_ok reads, if_neg (Nat.succ_ne_zero size)]
  exact bind_of_ok runs

end Talk

section Obeys

variable {σ : Type} [DecidableEq σ] {port : σ} {disasm : Disasm} {mem : U64 → Byte} {chip : Chip}
  {core₁ core₂ : Core σ} {hello text : List Byte} {lines : List CString}

theorem greet_room {core : Core σ} (greets : greet port disasm mem core = some (hello, core₁))
    {n : Nat} (room : core.debugger.cmdBuffer.length = n) :
    core₁.debugger.cmdBuffer.length = n := by
  rw [greet] at greets
  obtain ⟨⟨news, shown⟩, announces, greets⟩ := Option.bind_eq_some_iff.mp greets
  dsimp only at greets
  obtain ⟨inst, found, greets⟩ := Option.bind_eq_some_iff.mp greets
  obtain ⟨⟨place, told⟩, tells, greets⟩ := Option.bind_eq_some_iff.mp greets
  cases greets
  have room' : shown.debugger.cmdBuffer.length = n := by
    unfold announced at announces
    split at announces
    · cases announces
      exact room
    · split at announces
      · exact saidBy_room announces room
      · cases announces
        exact room
  have room'' : told.debugger.cmdBuffer.length = n := saidBy_room tells room'
  exact room''

end Obeys

/-- Two lines, the second of which single steps. -/
def regAndStep : List CString := [.literal "reg rip", .literal "s"]

theorem regAndStep_talks : ((greet () nopDisasm stopped.mem (stoppedConsole []).core).bind fun g =>
    talk () nopDisasm stopped.mem regAndStep g.2).isSome = true := by
  decide +kernel

end MidnightOS.Debug
