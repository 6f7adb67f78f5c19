import MidnightOS.Debug.Dialogue

/-! # How a session leaves the program

A program is resumed as it was interrupted, but for the trap flag, which is set exactly for a
single step.  Without a serial port it is never resumed.
-/

namespace MidnightOS.Debug

open MidnightOS.Lib
open MidnightOS.Arch (U64 IntInfo)

/-! ## The trap flag -/

def Core.traps {σ : Type} (core : Core σ) : Bool := core.info.frame.rflags.getLsbD 8

theorem traps_set (r : U64) : (r ||| trapFlag).getLsbD 8 = true := by
  simp [trapFlag]

theorem traps_clear (r : U64) : (r &&& ~~~trapFlag).getLsbD 8 = false := by
  simp [trapFlag]

theorem trapFlag_bit {i : Nat} (h : i < 64) : trapFlag.getLsbD i = decide (i = 8) := by
  have bit : ∀ i : Fin 64, trapFlag.getLsbD i = decide (i.val = 8) := by decide
  exact bit ⟨i, h⟩

theorem set_of_clear (r : U64) : (r &&& ~~~trapFlag) ||| trapFlag = r ||| trapFlag := by
  apply BitVec.eq_of_getLsbD_eq
  intro i hi
  rw [BitVec.getLsbD_or, BitVec.getLsbD_and, BitVec.getLsbD_not, BitVec.getLsbD_or]
  cases trapFlag.getLsbD i with
  | true => simp
  | false => simp [hi]

theorem clear_of_clear {r : U64} (h : r.getLsbD 8 = false) : r &&& ~~~trapFlag = r := by
  apply BitVec.eq_of_getLsbD_eq
  intro i hi
  rw [BitVec.getLsbD_and, BitVec.getLsbD_not, trapFlag_bit hi]
  by_cases flag : i = 8
  · rw [flag, h, Bool.false_and]
  · simp [flag, hi]

section Program

variable {τ σ : Type} {term : Terminal τ} {c c' : Console τ σ}

theorem wp_getCore {Q : Core σ → Console τ σ → Prop} {E : Fault → Console τ σ → Prop} :
    wp getCore Q E c ↔ Q c.core c := Iff.rfl

theorem wp_setCore {core : Core σ} {Q : Unit → Console τ σ → Prop}
    {E : Fault → Console τ σ → Prop} :
    wp (setCore core) Q E c ↔ Q () { c with core } := Iff.rfl

/-- The session has not touched the program or `stepping`. -/
structure SameProgram (c c' : Console τ σ) : Prop where
  info : c'.core.info = c.core.info
  stepping : c'.core.stepping = c.core.stepping

theorem SameProgram.trans {c'' : Console τ σ} (first : SameProgram c c')
    (second : SameProgram c' c'') : SameProgram c c'' :=
  ⟨second.info.trans first.info, second.stepping.trans first.stepping⟩

/-- The program goes on as it is, or with the trap flag for a single step. -/
def Leaves (c c' : Console τ σ) : Prop :=
  SameProgram c c' ∨ c'.core.stepping = true ∧
    c'.core.info = IntInfo.withRflags c.core.info (c.core.info.frame.rflags ||| trapFlag)

theorem Leaves.after {c'' : Console τ σ} (same : SameProgram c c') (leaves : Leaves c' c'') :
    Leaves c c'' := by
  rcases leaves with same' | ⟨stepping, info⟩
  · exact .inl (same.trans same')
  · rw [same.info] at info
    exact .inr ⟨stepping, info⟩

theorem onTerminal_any {α : Type} (x : EStateM Fault τ α) {P : α → Console τ σ → Prop}
    (h : ∀ a terminal, P a { c with terminal }) :
    wp (onTerminal x) P (fun _ _ => True) c :=
  wp_focus.mpr (wp_mono (wp_run x c.terminal) (fun a t _ => h a t) (fun _ _ _ => trivial))

theorem readLine_same : wp (readLine term) (fun _ c' => SameProgram c c') (fun _ _ => True) c := by
  rw [readLine, wp_bind, wp_getCore, wp_bind]
  exact onTerminal_any _ fun _ _ => ⟨rfl, rfl⟩

variable [DecidableEq σ] {port : σ} {disasm : Disasm} {mem : U64 → Byte}

theorem say_same (fmt : String) (args : List Arg) :
    wp (say term port fmt args) (fun _ c' => SameProgram c c') (fun _ _ => True) c := by
  rw [say, wp_bind, wp_getCore]
  cases dbgMsg (.literal fmt) args c.core.debugger.session.fresh.io with
  | ok n io =>
    dsimp only
    rw [wp_bind, wp_setCore]
    exact onTerminal_any _ fun _ _ => ⟨rfl, rfl⟩
  | error e io =>
    dsimp only
    rw [wp_bind]
    exact onTerminal_any _ fun _ _ => trivial

theorem execLine_same : wp (execLine term port disasm mem) (fun _ c' => SameProgram c c')
    (fun _ _ => True) c := by
  rw [execLine, wp_bind, wp_getCore]
  dsimp only
  cases runLine disasm ⟨c.core.info, mem⟩
      { c.core.debugger with session := c.core.debugger.session.fresh } with
  | ok result =>
    dsimp only
    rw [wp_bind, wp_setCore, wp_bind]
    exact onTerminal_any _ fun _ _ => ⟨rfl, rfl⟩
  | error e => trivial

theorem commandLoop_leaves (fuel : Nat) :
    wp (commandLoop term port disasm mem fuel) (fun _ c' => Leaves c c') (fun _ _ => True) c := by
  induction fuel generalizing c with
  | zero => trivial
  | succ fuel ih =>
    -- the other rounds, after what does not touch the program
    have rest {c₁ : Console τ σ} (same : SameProgram c c₁) :
        wp (commandLoop term port disasm mem fuel) (fun _ c' => Leaves c c') (fun _ _ => True) c₁ :=
      wp_mono ih (fun _ _ leaves => leaves.after same) (fun _ _ h => h)
    rw [commandLoop, wp_bind]
    -- what is said does not matter, and need not be spelled out
    generalize "/> " = prompt
    refine wp_mono (say_same prompt []) ?_ (fun _ _ h => h)
    intro _ c₁ same₁
    rw [wp_bind]
    refine wp_mono readLine_same ?_ (fun _ _ h => h)
    intro size c₂ same₂
    have same₁₂ := same₁.trans same₂
    rw [wp_ite]
    refine ⟨fun _ => rest same₁₂, fun _ => ?_⟩
    rw [wp_bind]
    refine wp_mono execLine_same ?_ (fun _ _ h => h)
    intro code c₃ same₃
    have same := same₁₂.trans same₃
    cases code with
    | success => exact rest same
    | «continue» => exact .inl same
    | step =>
      refine .inr ⟨rfl, ?_⟩
      change IntInfo.withRflags c₃.core.info (c₃.core.info.frame.rflags ||| trapFlag) = _
      rw [same.info]
    | unknownCmd =>
      generalize "Error: Unknown command\n" = complaint
      rw [wp_bind]
      refine wp_mono (say_same complaint []) ?_ (fun _ _ h => h)
      intro _ c₄ same₄
      exact rest (same.trans same₄)
    | invalidParams =>
      generalize "Error: Invalid parameter\n" = complaint
      rw [wp_bind]
      refine wp_mono (say_same complaint []) ?_ (fun _ _ h => h)
      intro _ c₄ same₄
      exact rest (same.trans same₄)

/-- The flags with which a session leaves a program that had `rflags`. -/
def flagsLeft (rflags : U64) (was now : Bool) : U64 :=
  let flags := if was then rflags &&& ~~~trapFlag else rflags
  if now then flags ||| trapFlag else flags

theorem announce_leaves :
    wp (announce term port)
      (fun _ c' => c'.core.info = IntInfo.withRflags c.core.info
        (flagsLeft c.core.info.frame.rflags c.core.stepping false)) (fun _ _ => True) c := by
  rw [announce, wp_bind, wp_getCore]
  cases stepping : c.core.stepping with
  | true => rfl
  | false =>
    rw [if_neg (by simp)]
    cases breakCondition c.core.dr6 c.core.debugger.session.drs with
    | some shown =>
      dsimp only
      generalize "\nBreakpoint %d at address 0x%lx\n" = fmt
      exact wp_mono (say_same fmt _) (fun _ _ same => same.info) (fun _ _ h => h)
    | none => rfl

theorem dbgMain_leaves (fuel : Nat) :
    wp (dbgMain term port disasm mem fuel)
      (fun _ c' => c'.core.info = IntInfo.withRflags c.core.info
        (flagsLeft c.core.info.frame.rflags c.core.stepping c'.core.stepping))
      (fun _ _ => True) c := by
  rw [dbgMain, wp_bind]
  refine wp_mono announce_leaves ?_ (fun _ _ h => h)
  intro _ c₁ info₁
  rw [wp_bind, wp_getCore]
  cases disasm mem c₁.core.info.frame.rip with
  | none => trivial
  | some inst =>
    dsimp only
    generalize "0x%lx: %s\n" = fmt
    rw [wp_bind]
    refine wp_mono (say_same fmt _) ?_ (fun _ _ h => h)
    intro _ c₂ same₂
    rw [wp_bind, wp_getCore, wp_bind, wp_setCore]
    refine wp_mono (commandLoop_leaves fuel) ?_ (fun _ _ h => h)
    rintro _ c' (same | ⟨stepping, info⟩)
    · rw [same.stepping, same.info]
      exact same₂.info.trans info₁
    · rw [stepping, info]
      change IntInfo.withRflags c₂.core.info (c₂.core.info.frame.rflags ||| trapFlag) = _
      rw [same₂.info, info₁]
      rfl

theorem info_left {fuel : Nat} (run : dbgMain term port disasm mem fuel c = .ok () c') :
    c'.core.info = IntInfo.withRflags c.core.info
      (flagsLeft c.core.info.frame.rflags c.core.stepping c'.core.stepping) := by
  have leaves : wp (dbgMain term port disasm mem fuel) _ _ c := dbgMain_leaves fuel
  rwa [wp, run] at leaves

/-- The states at the debug exceptions of a program that leaves its trap flag alone. -/
inductive Visited (term : Terminal τ) (port : σ) (disasm : Disasm) : Console τ σ → Prop where
  | first {c : Console τ σ} (stepping : c.core.stepping = false) (flag : c.core.traps = false) :
      Visited term port disasm c
  | again {c c' : Console τ σ} (h : Visited term port disasm c) {mem : U64 → Byte} {fuel : Nat}
      (run : dbgMain term port disasm mem fuel c = .ok () c') (c'' : Console τ σ)
      (stepping : c''.core.stepping = c'.core.stepping) (flag : c''.core.traps = c'.core.traps) :
      Visited term port disasm c''

theorem flagsLeft_traps {rflags : U64} {was : Bool} (h : rflags.getLsbD 8 = was) (now : Bool) :
    flagsLeft rflags was now =
      if now then rflags ||| trapFlag else rflags &&& ~~~trapFlag := by
  cases was with
  | true =>
    cases now with
    | true => exact set_of_clear rflags
    | false => rfl
  | false =>
    cases now with
    | true => rfl
    | false => exact (clear_of_clear h).symm

/-- The trap flag is set where `stepping` is. -/
theorem Visited.traps (h : Visited term port disasm c) : c.core.traps = c.core.stepping := by
  induction h with
  | first stepping flag => rw [flag, stepping]
  | @again c c' h mem fuel run c'' stepping flag ih =>
    rw [flag, stepping]
    have info := info_left run
    rw [flagsLeft_traps ih] at info
    rw [Core.traps, info]
    split
    · next now => rw [now]; exact traps_set _
    · next now =>
      have off := Bool.eq_false_iff.mpr now
      rw [off]
      exact traps_clear _

end Program

section Absent

variable {chip : Chip} {s : Serial} {wire : List Byte} {n : Nat}

/-- The buffer fills with zeros. -/
theorem getcmdLoopOn_absent (broken : ¬chip.Works) {size : Nat} (pos : 0 < size) (fuel : Nat)
    {cmd : List Byte} {i : Nat} (room : 0 < cmd.length) (fits : i ≤ size)
    (enough : size < i + fuel) (zero : i = 0 ∨ cmd[0]? = some 0) (absent : s.Absent wire n) :
    wp (getcmdLoopOn chip size fuel cmd i)
      (fun out s' => out.1[0]? = some 0 ∧ out.1.length = cmd.length ∧ out.2 = size ∧
        s'.Absent wire (n + 2 * (size - i))) (fun _ _ => False) s := by
  induction fuel generalizing cmd i s n with
  | zero => omega
  | succ fuel ih =>
    rw [getcmdLoopOn, wp_ite]
    refine ⟨fun more => ?_, fun full => ?_⟩
    · rw [wp_bind]
      refine wp_mono (dbgSerialGetc_absent broken absent) ?_ (fun _ _ he => he)
      rintro _ s₁ ⟨rfl, absent₁⟩
      rw [if_neg (by decide), wp_bind]
      refine wp_mono (dbgSerialPutc_absent _ broken absent₁) ?_ (fun _ _ he => he)
      intro _ s₂ absent₂
      rw [if_neg (by decide)]
      have first : (cmd.set i 0)[0]? = some 0 := by
        rcases zero with rfl | zero
        · simp [room]
        · by_cases start : i = 0
          · simp [start, room]
          · rw [List.getElem?_set_ne start, zero]
      have same : (cmd.set i 0).length = cmd.length := List.length_set
      have attempts : n + 2 * (size - i) = n + 1 + 1 + 2 * (size - (i + 1)) := by omega
      rw [← same, attempts]
      exact ih (same ▸ room) (by omega) (by omega) (.inr first) absent₂
    · rcases zero with rfl | zero
      · exact absurd pos full
      · have done : size - i = 0 := by omega
        rw [done]
        exact ⟨zero, rfl, by simp only; omega, absent⟩

section Silent

variable {σ : Type}

/-- The line is empty, as the zeros end it. -/
theorem readLine_absent (broken : ¬chip.Works) {core : Core σ}
    (room : 0 < core.debugger.cmdBuffer.length) (absent : s.Absent wire n) :
    wp (readLine (portTerminal chip))
      (fun size c' => size = 256 ∧ c'.core.debugger.cmdBuffer[0]? = some 0 ∧
        c'.core.debugger.cmdBuffer.length = core.debugger.cmdBuffer.length ∧
        c'.terminal.Absent wire (n + 512)) (fun _ _ => False) ⟨s, core⟩ := by
  rw [readLine, wp_bind, wp_getCore, wp_bind, onTerminal, wp_focus]
  change wp (dbgGetcmdOn chip core.debugger.cmdBuffer 256) _ _ s
  rw [dbgGetcmdOn, wp_bind, wp_get]
  refine wp_mono (getcmdLoopOn_absent broken (by decide) _ room (Nat.zero_le _) (by omega) (.inl rfl)
    absent) ?_ (fun _ _ h => h)
  rintro out s' ⟨empty, length, size, absent'⟩
  exact ⟨size, empty, length, absent'⟩

variable [DecidableEq σ] {port : σ} {disasm : Disasm} {mem : U64 → Byte}

theorem putText_absent (broken : ¬chip.Works) (text : List Byte) (absent : s.Absent wire n) :
    wp (putText (portTerminal chip) text) (fun _ s' => s'.Absent wire (n + text.length))
      (fun _ _ => False) s := by
  induction text generalizing s n with
  | nil => exact absent
  | cons c text ih =>
    rw [putText, wp_bind, List.length_cons, Nat.add_comm text.length 1, ← Nat.add_assoc]
    exact wp_mono (dbgSerialPutc_absent c broken absent) (fun _ _ absent₁ => ih absent₁)
      (fun _ _ he => he)

/-- A message that was formed is given to the port. -/
theorem wp_say {τ : Type} {term : Terminal τ} {t : τ} {core core' : Core σ} {fmt : String}
    {args : List Arg} {text : List Byte} {Q : Unit → Console τ σ → Prop}
    {E : Fault → Console τ σ → Prop} (said : saidBy port fmt args core = some (text, core')) :
    wp (say term port fmt args) Q E ⟨t, core⟩ ↔
      wp (putText term text) (fun _ t' => Q () ⟨t', core'⟩) (fun e t' => E e ⟨t', core'⟩) t := by
  unfold saidBy at said
  rw [say, wp_bind, wp_getCore]
  cases message : dbgMsg (.literal fmt) args core.debugger.session.fresh.io with
  | ok n io =>
    rw [message] at said
    obtain ⟨rfl, rfl⟩ := Prod.mk.inj (Option.some.inj said)
    dsimp only
    rw [wp_bind, wp_setCore]
    exact wp_focus
  | error e io =>
    rw [message] at said
    cases said

theorem pieces_plain {fmt : List Byte} (plain : chr '%' ∉ fmt) (buffs : StrBuffs) :
    render (piecesFrom 0 fmt) [] buffs = some (fmt, buffs) := by
  induction fmt with
  | nil => rfl
  | cons c fmt ih =>
    rw [List.mem_cons, not_or] at plain
    rw [piecesFrom, if_pos (Ne.symm plain.1), render, ih plain.2]
    rfl

/-- A message without directives is always formed. -/
theorem saidBy_plain {fmt : String}
    (plain : ((CString.literal fmt).chars.all fun c => !(c = chr '%')) = true)
    (short : (CString.literal fmt).chars.length < 2 ^ 64) (core : Core σ) :
    ∃ text core', saidBy port fmt [] core = some (text, core') := by
  have none : chr '%' ∉ (CString.literal fmt).chars := by
    intro percent
    simpa using List.all_eq_true.mp plain _ percent
  have run := dbgMsg_spec (s := core.debugger.session.fresh.io)
    (pieces_plain none core.debugger.session.fresh.io.buffs) short
  unfold saidBy
  rw [run]
  exact ⟨_, _, rfl⟩

/-- An empty line is no command. -/
theorem ranBy_empty {core : Core σ} (empty : core.debugger.cmdBuffer[0]? = some 0) :
    ∃ core', ranBy port disasm mem core = some (.unknownCmd, [], core') := by
  obtain ⟨rest, line⟩ : ∃ rest, core.debugger.cmdBuffer = 0 :: rest := by
    cases buffer : core.debugger.cmdBuffer with
    | nil => simp [buffer] at empty
    | cons c rest => exact ⟨rest, by simpa [buffer] using empty⟩
  have parse : dbgParsecmd core.debugger.cmdBuffer core.debugger.argvBuffer 8 =
      .ok ⟨core.debugger.cmdBuffer, core.debugger.argvBuffer, 0⟩ := by
    rw [dbgParsecmd, line]
    exact parseLoop_nul 8 _ [] rest core.debugger.argvBuffer 0
  unfold ranBy runLine
  dsimp only
  rw [parse, ok_bind]
  exact ⟨_, rfl⟩

theorem say_absent (port : σ) (broken : ¬chip.Works) {fmt : String}
    (plain : ((CString.literal fmt).chars.all fun c => !(c = chr '%')) = true)
    (short : (CString.literal fmt).chars.length < 2 ^ 64) {core : Core σ}
    (absent : s.Absent wire n) :
    wp (say (portTerminal chip) port fmt [])
      (fun _ c' => c'.core.debugger.cmdBuffer = core.debugger.cmdBuffer ∧
        ∃ m, c'.terminal.Absent wire (n + m)) (fun _ _ => False) ⟨s, core⟩ := by
  obtain ⟨text, core', said⟩ : ∃ text core', saidBy port fmt [] core = some (text, core') :=
    saidBy_plain plain short core
  rw [wp_say said]
  exact wp_mono (putText_absent broken text absent) (fun _ _ h => ⟨saidBy_buffer said, _, h⟩)
    (fun _ _ h => h)

theorem execLine_absent (chip : Chip) (port : σ) (disasm : Disasm) (mem : U64 → Byte)
    {core : Core σ} (empty : core.debugger.cmdBuffer[0]? = some 0)
    (absent : s.Absent wire n) :
    wp (execLine (portTerminal chip) port disasm mem)
      (fun code c' => code = .unknownCmd ∧
        c'.core.debugger.cmdBuffer.length = core.debugger.cmdBuffer.length ∧
        c'.terminal.Absent wire n) (fun _ _ => False) ⟨s, core⟩ := by
  obtain ⟨core', ran⟩ : ∃ core', ranBy port disasm mem core = some (.unknownCmd, [], core') :=
    ranBy_empty empty
  have room := ranBy_buffer ran
  unfold ranBy at ran
  rw [execLine, wp_bind, wp_getCore]
  dsimp only
  split at ran
  · next code d run =>
    have parts := Option.some.inj ran
    rw [Prod.mk.injEq, Prod.mk.injEq] at parts
    obtain ⟨rfl, silent, rfl⟩ := parts
    rw [run]
    dsimp only
    rw [silent, wp_bind, wp_setCore, wp_bind, onTerminal, wp_focus]
    exact ⟨rfl, room, absent⟩
  · cases ran

theorem prompt_plain : ((CString.literal "/> ").chars.all fun c => !(c = chr '%')) = true ∧
    (CString.literal "/> ").chars.length < 2 ^ 64 := by
  decide +kernel

theorem unknownCommand_plain :
    ((CString.literal "Error: Unknown command\n").chars.all fun c => !(c = chr '%')) = true ∧
      (CString.literal "Error: Unknown command\n").chars.length < 2 ^ 64 := by
  decide +kernel

/-- A round of the debugger: it asks, reads a line that is empty, and knows no such command. -/
def EmptyRound {τ : Type} (term : Terminal τ) (port : σ) (disasm : Disasm) (mem : U64 → Byte)
    (c c' : Console τ σ) : Prop :=
  ∃ c₁ c₂ c₃, say term port "/> " [] c = .ok () c₁ ∧ readLine term c₁ = .ok 256 c₂ ∧
    c₂.core.debugger.cmdBuffer[0]? = some 0 ∧
    execLine term port disasm mem c₂ = .ok .unknownCmd c₃ ∧
    say term port "Error: Unknown command\n" [] c₃ = .ok () c'

inductive EmptyRounds {τ : Type} (term : Terminal τ) (port : σ) (disasm : Disasm)
    (mem : U64 → Byte) : Nat → Console τ σ → Console τ σ → Prop where
  | none {c : Console τ σ} : EmptyRounds term port disasm mem 0 c c
  | more {k : Nat} {c c₁ c' : Console τ σ} (round : EmptyRound term port disasm mem c c₁)
      (rest : EmptyRounds term port disasm mem k c₁ c') :
      EmptyRounds term port disasm mem (k + 1) c c'

theorem commandLoop_rounds {τ : Type} {term : Terminal τ} {fuel : Nat} {c c' : Console τ σ}
    (rounds : EmptyRounds term port disasm mem fuel c c') :
    commandLoop term port disasm mem fuel c = .error .endless c' := by
  induction rounds with
  | none => rfl
  | more round rest ih =>
    obtain ⟨c₁, c₂, c₃, asks, reads, -, runs, complains⟩ := round
    rw [commandLoop_round asks reads runs]
    dsimp only
    rw [bind_of_ok complains]
    exact ih

theorem emptyRound_absent (port : σ) (disasm : Disasm) (mem : U64 → Byte)
    (broken : ¬chip.Works) {core : Core σ}
    (room : 0 < core.debugger.cmdBuffer.length) (absent : s.Absent wire n) :
    ∃ c' m, EmptyRound (portTerminal chip) port disasm mem ⟨s, core⟩ c' ∧
      0 < c'.core.debugger.cmdBuffer.length ∧ c'.terminal.Absent wire m ∧ n + 512 ≤ m := by
  have prompt := prompt_plain
  have complaint := unknownCommand_plain
  unfold EmptyRound
  -- the messages stay names, so that they are not spelled out
  generalize "/> " = fmt at prompt ⊢
  generalize "Error: Unknown command\n" = error at complaint ⊢
  obtain ⟨_, ⟨s₁, core₁⟩, asks, buffer₁, m₁, absent₁⟩ :=
    exists_ok_of_wp (say_absent port broken prompt.1 prompt.2 absent)
  rw [← buffer₁] at room
  obtain ⟨_, ⟨s₂, core₂⟩, reads, rfl, empty, length₂, absent₂⟩ :=
    exists_ok_of_wp (readLine_absent broken room absent₁)
  rw [← length₂] at room
  obtain ⟨_, ⟨s₃, core₃⟩, runs, rfl, length₃, absent₃⟩ :=
    exists_ok_of_wp (execLine_absent chip port disasm mem empty absent₂)
  rw [← length₃] at room
  obtain ⟨_, ⟨s₄, core₄⟩, complains, buffer₄, m₄, absent₄⟩ :=
    exists_ok_of_wp (say_absent port broken complaint.1 complaint.2 absent₃)
  rw [← buffer₄] at room
  exact ⟨_, _, ⟨_, _, _, asks, reads, empty, runs, complains⟩, room, absent₄, by omega⟩

theorem emptyRounds_absent (broken : ¬chip.Works) (fuel : Nat) {s : Serial} {core : Core σ}
    {n : Nat} (room : 0 < core.debugger.cmdBuffer.length) (absent : s.Absent wire n) :
    ∃ c' m, EmptyRounds (portTerminal chip) port disasm mem fuel ⟨s, core⟩ c' ∧
      c'.terminal.Absent wire m ∧ n + 512 * fuel ≤ m := by
  induction fuel generalizing s core n with
  | zero => exact ⟨_, n, .none, absent, Nat.le_refl n⟩
  | succ fuel ih =>
    obtain ⟨c₁, m₁, round, room₁, absent₁, more₁⟩ :=
      emptyRound_absent port disasm mem broken room absent
    obtain ⟨c', m, rounds, absent', more⟩ := ih room₁ absent₁
    refine ⟨c', m, .more round rounds, absent', ?_⟩
    calc n + 512 * (fuel + 1) = n + 512 + 512 * fuel := by
          rw [Nat.mul_succ, ← Nat.add_assoc, Nat.add_right_comm]
      _ ≤ m₁ + 512 * fuel := Nat.add_le_add_right more₁ _
      _ ≤ m := more

theorem announce_absent (broken : ¬chip.Works) {core core' : Core σ} {news : List Byte}
    (announces : announced port core = some (news, core')) (absent : s.Absent wire n) :
    wp (announce (portTerminal chip) port)
      (fun _ c' => c'.core = core' ∧ ∃ m, c'.terminal.Absent wire (n + m))
      (fun _ _ => False) ⟨s, core⟩ := by
  unfold announced at announces
  rw [announce, wp_bind, wp_getCore, wp_ite]
  refine ⟨fun stepping => ?_, fun running => ?_⟩
  · rw [if_pos stepping] at announces
    cases announces
    exact ⟨rfl, 0, absent⟩
  · rw [if_neg running] at announces
    dsimp only
    cases shown : breakCondition core.dr6 core.debugger.session.drs with
    | some condition =>
      rw [shown] at announces
      dsimp only at announces ⊢
      rw [wp_say announces]
      exact wp_mono (putText_absent broken news absent) (fun _ _ h => ⟨rfl, _, h⟩) (fun _ _ h => h)
    | none =>
      rw [shown] at announces
      cases announces
      exact ⟨rfl, 0, absent⟩

/-- The head of `dbg_main`, without a port. -/
theorem dbgMain_absent_greets (broken : ¬chip.Works) {core core' : Core σ} {hello : List Byte}
    (greets : greet port disasm mem core = some (hello, core')) (absent : s.Absent wire n) :
    ∃ s₀ m, s₀.Absent wire (n + m) ∧ ∀ fuel,
      dbgMain (portTerminal chip) port disasm mem fuel ⟨s, core⟩ =
        commandLoop (portTerminal chip) port disasm mem fuel ⟨s₀, core'⟩ := by
  rw [greet] at greets
  obtain ⟨⟨news, core₁⟩, announces, greets⟩ := Option.bind_eq_some_iff.mp greets
  dsimp only at greets
  obtain ⟨inst, found, greets⟩ := Option.bind_eq_some_iff.mp greets
  obtain ⟨⟨place, core₂⟩, tells, greets⟩ := Option.bind_eq_some_iff.mp greets
  cases greets
  unfold dbgMain
  -- the message stays a name, so that it is not spelled out
  generalize "0x%lx: %s\n" = fmt at tells ⊢
  obtain ⟨_, ⟨s₁, core⟩, news', same, m₁, absent₁⟩ :=
    exists_ok_of_wp (announce_absent broken announces absent)
  obtain rfl : core₁ = core := same.symm
  have shows : wp (say (portTerminal chip) port fmt
      [.long core₁.info.frame.rip, .string inst.text])
      (fun _ c' => c'.core = core₂ ∧ ∃ m, c'.terminal.Absent wire (n + m)) (fun _ _ => False)
      ⟨s₁, core₁⟩ := by
    rw [wp_say tells]
    refine wp_mono (putText_absent broken place absent₁) (fun _ s₂ absent₂ => ?_) (fun _ _ h => h)
    exact ⟨rfl, m₁ + place.length, Nat.add_assoc .. ▸ absent₂⟩
  obtain ⟨_, ⟨s₂, core⟩, place', same, m₂, absent₂⟩ := exists_ok_of_wp shows
  obtain rfl : core₂ = core := same.symm
  refine ⟨s₂, m₂, absent₂, fun fuel => ?_⟩
  have given : getCore (⟨s₁, core₁⟩ : Console Serial σ) = .ok core₁ ⟨s₁, core₁⟩ := rfl
  rw [bind_of_ok news', bind_of_ok given, found]
  dsimp only
  rw [bind_of_ok place']
  rfl

/-- Without a port the kernel does not come back from a debug exception: the debugger takes the
zeros for an empty line, and asks again for ever. -/
theorem dbgMain_absent (broken : ¬chip.Works) {s : Serial} {core core' : Core σ}
    {hello : List Byte} (greets : greet port disasm mem core = some (hello, core'))
    (room : 0 < core.debugger.cmdBuffer.length) (absent : s.Absent wire n) :
    ∃ s₀, ∀ fuel, ∃ c' m,
      dbgMain (portTerminal chip) port disasm mem fuel ⟨s, core⟩ = .error .endless c' ∧
      EmptyRounds (portTerminal chip) port disasm mem fuel ⟨s₀, core'⟩ c' ∧
      c'.terminal.Absent wire m ∧ n + 512 * fuel ≤ m := by
  obtain ⟨s₀, m₀, absent₀, head⟩ := dbgMain_absent_greets broken greets absent
  rw [← greet_room greets rfl] at room
  refine ⟨s₀, fun fuel => ?_⟩
  obtain ⟨c', m, rounds, absent', more⟩ := emptyRounds_absent broken fuel room absent₀
  exact ⟨c', m, (head fuel).trans (commandLoop_rounds rounds), rounds, absent', by omega⟩

end Silent

end Absent

/-- A bus without a chip, which reads as ones. -/
def emptyBus : Chip := ⟨fun _ => 0xFF, fun _ => 0, 16⟩

theorem dbgMain_absent_stopped :
    ∃ s₀ core', ∀ fuel, ∃ c' m,
      dbgMain (portTerminal emptyBus) () nopDisasm stopped.mem fuel (stoppedConsole []) =
        .error .endless c' ∧
      EmptyRounds (portTerminal emptyBus) () nopDisasm stopped.mem fuel ⟨s₀, core'⟩ c' ∧
      c'.terminal.Absent [] m ∧ 0 + 512 * fuel ≤ m := by
  have greets : ∃ g, greet () nopDisasm stopped.mem (stoppedConsole []).core = some g := by
    obtain ⟨_, talks⟩ := Option.isSome_iff_exists.mp regAndStep_talks
    obtain ⟨g, greets, _⟩ := Option.bind_eq_some_iff.mp talks
    exact ⟨g, greets⟩
  have room : (stoppedConsole []).core.debugger.cmdBuffer.length = 256 := List.length_replicate
  have absent : (stoppedConsole []).terminal.Absent [] 0 := powered_absent
  -- the console stays a name, so that the session is not run
  generalize stoppedConsole [] = c at room absent greets ⊢
  obtain ⟨s, core⟩ := c
  obtain ⟨⟨hello, core'⟩, greets⟩ := greets
  have broken : ¬emptyBus.Works := fun works => by cases works.1
  obtain ⟨s₀, rounds⟩ := dbgMain_absent broken greets (room ▸ by decide) absent
  exact ⟨s₀, core', rounds⟩

end MidnightOS.Debug
