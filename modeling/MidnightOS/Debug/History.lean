import MidnightOS.Debug.SameEffect
import MidnightOS.Debug.Steadfast

/-! # The effect of a command line and what was typed before

The pointers of earlier commands stay in `argv_buffer`, and what they point to in
`cmd_buffer`.  A line does the same after every history, unless it is an `x` that
reads an argument it was not given.
-/

namespace MidnightOS.Debug

open MidnightOS.Lib
open MidnightOS.Arch (U64 IntInfo)

variable {σ : Type}

/-! ## The prompt -/

/-- The state of the debugger: the session, `cmd_buffer` and `argv_buffer`. -/
structure Debugger (σ : Type) where
  session : Session σ
  cmdBuffer : List Byte
  argvBuffer : List (Option Nat)

/-- The arguments that the pointers in `argv` give. -/
def argvOf (buff : List Byte) (argv : List (Option Nat)) : Argv := fun i =>
  match argv[i]? with
  | some (some p) => .ok (buff.drop p)
  | some none => .error .null
  | none => .error .read

/-- What `dbg_main` does with the line in the buffer. -/
def runLine (disasm : Disasm) (m : Machine) (d : Debugger σ) : Except Fault (Code × Debugger σ) := do
  let parsed ← dbgParsecmd d.cmdBuffer d.argvBuffer 8
  match dbgExec disasm m parsed.argc (argvOf parsed.buff parsed.argv) d.session with
  | .ok code session => .ok (code, ⟨session, parsed.buff, parsed.argv⟩)
  | .error e _ => .error e

/-- The debugger at its first prompt. -/
def Debugger.boot (sinks : Sinks σ) (drs : DebugRegs) : Debugger σ :=
  ⟨⟨⟨sinks, fun _ _ => 0, []⟩, drs⟩, List.replicate 256 0, List.replicate 8 none⟩

/-- The states that sequences of command lines lead to, with whatever the kernel prints and the
program does in between. -/
inductive History (disasm : Disasm) (sinks : Sinks σ) : Debugger σ → Prop where
  | boot (drs : DebugRegs) : History disasm sinks (.boot sinks drs)
  | typed {d : Debugger σ} (h : History disasm sinks d) {keys : List Byte} {typed : Typed}
      (hkeys : dbgGetcmd keys d.cmdBuffer 256 = some typed) :
      History disasm sinks { d with cmdBuffer := typed.cmd }
  | ran {d d' : Debugger σ} (h : History disasm sinks d) {m : Machine} {code : Code}
      (hrun : runLine disasm m d = .ok (code, d')) : History disasm sinks d'
  | message {d : Debugger σ} (h : History disasm sinks d) {fmt : CString} {args : List Arg} {n : Nat}
      {io : DbgIo σ} (hmsg : dbgMsg fmt args d.session.io = .ok n io) :
      History disasm sinks { d with session := { d.session with io } }
  | resumed {d : Debugger σ} (h : History disasm sinks d) (drs : DebugRegs) :
      History disasm sinks { d with session := { d.session with drs } }

/-- The line in the buffer, before what was left there. -/
def enter (line : CString) (buffer : List Byte) : List Byte :=
  line.chars ++ 0 :: buffer.drop (line.chars.length + 1)

/-- The session before a line, with nothing printed. -/
def Session.fresh (s : Session σ) : Session σ := { s with io := { s.io with sent := [] } }

/-- The result of a line, what it prints and the debug registers after it. -/
def effect (disasm : Disasm) (m : Machine) (line : CString) (d : Debugger σ) :
    Except Fault (Code × List (Call σ) × DebugRegs) := do
  let (code, d') ← runLine disasm m
    { d with session := d.session.fresh, cmdBuffer := enter line d.cmdBuffer }
  .ok (code, d'.session.io.sent, d'.session.drs)

/-! ## What every history keeps -/

theorem getcmdLoop_length {size : Nat} {keys cmd echo : List Byte} {i : Nat} {typed : Typed}
    (h : getcmdLoop size keys cmd i echo = some typed) : typed.cmd.length = cmd.length := by
  induction keys generalizing cmd i echo with
  | nil =>
    rw [getcmdLoop] at h
    split_ifs at h
    cases h
    rfl
  | cons c keys ih =>
    rw [getcmdLoop] at h
    by_cases hroom : i < size
    · rw [if_pos hroom] at h
      by_cases hback : c = 8 ∨ c = 127
      · rw [if_pos hback] at h
        by_cases hpos : 0 < i
        · rw [if_pos hpos] at h
          exact ih h
        · rw [if_neg hpos] at h
          exact ih h
      · rw [if_neg hback] at h
        dsimp only at h
        by_cases hend : c = 10 ∨ c = 13
        · rw [if_pos hend] at h
          cases h
          simp
        · rw [if_neg hend] at h
          simpa using ih h
    · rw [if_neg hroom] at h
      cases h
      rfl

theorem except_bind_ok {α β : Type} {x : Except Fault α} {f : α → Except Fault β} {b : β}
    (h : (x >>= f) = .ok b) : ∃ a, x = .ok a ∧ f a = .ok b := by
  cases x with
  | ok a => exact ⟨a, rfl, h⟩
  | error e => cases h

theorem parseLoop_lengths {maxArgs fuel i : Nat} {before after : Parsed}
    (h : parseLoop maxArgs fuel i before = .ok after) :
    after.buff.length = before.buff.length ∧ after.argv.length = before.argv.length := by
  induction fuel generalizing i before with
  | zero => cases h
  | succ fuel ih =>
    obtain ⟨buff, argv, argc⟩ := before
    rw [parseLoop] at h
    obtain ⟨c, _, h⟩ := except_bind_ok h
    split_ifs at h
    · obtain ⟨spaces, _, h⟩ := except_bind_ok h
      obtain ⟨c', _, h⟩ := except_bind_ok h
      split_ifs at h
      · cases h
        exact ⟨rfl, rfl⟩
      · obtain ⟨letters, _, h⟩ := except_bind_ok h
        obtain ⟨c'', _, h⟩ := except_bind_ok h
        split_ifs at h
        · simpa using ih h
        · simpa using ih h
    · cases h
      exact ⟨rfl, rfl⟩

/-- What holds after every history. -/
structure Settled (sinks : Sinks σ) (d : Debugger σ) : Prop where
  session : SteadfastSession sinks d.session
  cmdBuffer : d.cmdBuffer.length = 256
  argvBuffer : d.argvBuffer.length = 8

theorem Settled.run {disasm : Disasm} {sinks : Sinks σ} {m : Machine} {d d' : Debugger σ}
    {code : Code} (h : Settled sinks d) (hrun : runLine disasm m d = .ok (code, d')) :
    Settled sinks d' := by
  obtain ⟨parsed, hparse, hexec⟩ := except_bind_ok hrun
  obtain ⟨hbuff, hargv⟩ := parseLoop_lengths hparse
  cases hresult : dbgExec disasm m parsed.argc (argvOf parsed.buff parsed.argv) d.session with
  | error e session => rw [hresult] at hexec; cases hexec
  | ok code' session =>
    rw [hresult] at hexec
    cases hexec
    exact ⟨keeps_exec _ _ _ _ _ _ _ h.session hresult, hbuff.trans h.cmdBuffer,
      hargv.trans h.argvBuffer⟩

theorem History.settled {disasm : Disasm} {sinks : Sinks σ} {d : Debugger σ}
    (h : History disasm sinks d) : Settled sinks d := by
  induction h with
  | boot drs => exact ⟨⟨rfl, rfl⟩, List.length_replicate, List.length_replicate⟩
  | typed h hkeys ih => exact ⟨ih.session, (getcmdLoop_length hkeys).trans ih.cmdBuffer, ih.argvBuffer⟩
  | ran h hrun ih => exact ih.run hrun
  | message h hmsg ih =>
    exact ⟨keeps_dbgMsg _ _ _ _ _ ih.session hmsg, ih.cmdBuffer, ih.argvBuffer⟩
  | resumed h drs ih => exact ⟨ih.session, ih.cmdBuffer, ih.argvBuffer⟩

/-! ## The arguments of a line -/

theorem argvOf_some {argv : List (Option Nat)} {i p : Nat} (h : argv[i]? = some (some p))
    (buff : List Byte) : argvOf buff argv i = .ok (buff.drop p) := by
  unfold argvOf
  rw [h]

theorem argvOf_none {argv : List (Option Nat)} {i : Nat} (h : argv[i]? = some none)
    (buff : List Byte) : argvOf buff argv i = .error .null := by
  unfold argvOf
  rw [h]

theorem pointers_get {buff : List Byte} {ws : List (List Byte)} {ptrs : List Nat}
    (h : List.Forall₂ (PointsTo buff) ws ptrs) {i : Nat} {word : List Byte}
    (hi : ws[i]? = some word) : ∃ p, ptrs[i]? = some p ∧ PointsTo buff word p := by
  induction h generalizing i with
  | nil => cases hi
  | cons hfirst hrest ih =>
    cases i with
    | zero =>
      cases hi
      exact ⟨_, rfl, hfirst⟩
    | succ i => exact ih hi

theorem reads_of_pointers {buff : List Byte} {ws : List (List Byte)} {ptrs : List Nat}
    (h : List.Forall₂ (PointsTo buff) ws ptrs) (others : List (Option Nat)) :
    Reads (argvOf buff (ptrs.map some ++ others)) ws := by
  intro i word hi
  obtain ⟨p, hp, hnul, htext⟩ := pointers_get h hi
  refine ⟨buff.drop p, argvOf_some ?_ buff, hnul, htext⟩
  rw [List.getElem?_append_left, List.getElem?_map, hp]
  · rfl
  · rw [List.length_map]
    exact (List.getElem?_eq_some_iff.mp hp).1

theorem textOf_length_lt {str : Chars} (h : 0 ∈ str) : (textOf str).length < str.length := by
  refine Nat.lt_of_le_of_ne (textOf_isPrefixOf str).length_le fun heq => ?_
  have hall := (textOf_isPrefixOf str).eq_of_length heq
  rw [← hall] at h
  exact zero_notMem_textOf _ h

theorem short_of_pointers {buff : List Byte} {ws : List (List Byte)} {ptrs : List Nat}
    (h : List.Forall₂ (PointsTo buff) ws ptrs) (hbuff : buff.length = 256) : Short ws := by
  intro word hword
  obtain ⟨i, hi⟩ := List.mem_iff_getElem?.mp hword
  obtain ⟨p, _, hnul, htext⟩ := pointers_get h hi
  have hlength := textOf_length_lt hnul
  rw [htext, List.length_drop] at hlength
  omega

/-- The buffer and the pointers after the split of a line with the words `ws`. -/
structure Given (line : CString) (d : Debugger σ) (buff : List Byte) (ptrs : List Nat) : Prop where
  parse : dbgParsecmd (enter line d.cmdBuffer) d.argvBuffer 8 =
    .ok ⟨buff, ptrs.map some ++ d.argvBuffer.drop ptrs.length, ptrs.length⟩
  pointers : List.Forall₂ (PointsTo buff) ((words line.chars).take 8) ptrs
  sameLength : buff.length = 256
  rest : ∃ mid, mid.length = line.chars.length ∧
    buff = mid ++ 0 :: d.cmdBuffer.drop (line.chars.length + 1)

theorem Settled.given {sinks : Sinks σ} {d : Debugger σ} (h : Settled sinks d) {line : CString}
    (hline : line.chars.length < 256) : ∃ buff ptrs, Given line d buff ptrs := by
  have hroom : 8 ≤ d.argvBuffer.length := by rw [h.argvBuffer]
  obtain ⟨mid, ptrs, hsplits, -⟩ :=
    dbgParsecmd_splits line (d.cmdBuffer.drop (line.chars.length + 1)) hroom
  have hbuffer := h.cmdBuffer
  have hmid := hsplits.sameLength
  refine ⟨mid ++ 0 :: d.cmdBuffer.drop (line.chars.length + 1), ptrs, ?_, ?_, ?_, mid, hmid, rfl⟩
  · simpa [enter] using hsplits.returns
  · simpa using hsplits.pointers
  · rw [List.length_append, List.length_cons, List.length_drop]
    omega

/-- What is seen of a run. -/
def outcome : EStateM.Result Fault (Session σ) Code →
    Except Fault (Code × List (Call σ) × DebugRegs)
  | .ok code session => .ok (code, session.io.sent, session.drs)
  | .error e _ => .error e

theorem Given.effect_eq {disasm : Disasm} {m : Machine} {line : CString} {d : Debugger σ}
    {buff : List Byte} {ptrs : List Nat} (h : Given line d buff ptrs) :
    effect disasm m line d =
      outcome (dbgExec disasm m ((words line.chars).take 8).length
        (argvOf buff (ptrs.map some ++ d.argvBuffer.drop ptrs.length)) d.session.fresh) := by
  unfold effect runLine
  dsimp only
  rw [h.parse, h.pointers.length_eq]
  dsimp only [ok_bind]
  cases dbgExec disasm m ptrs.length (argvOf buff (ptrs.map some ++ d.argvBuffer.drop ptrs.length))
      d.session.fresh with
  | ok code session => rfl
  | error e session => rfl

/-! ## The same effect -/

theorem readsOwn_take {info : IntInfo} {ws : List (List Byte)} (h : ReadsOwn info ws) :
    ReadsOwn info (ws.take 8) := by
  intro args hargs
  cases ws with
  | nil => cases hargs
  | cons word rest =>
    rw [List.take_succ_cons] at hargs
    cases hargs
    obtain ⟨address, others, hrest, hreads⟩ := h rest rfl
    subst hrest
    refine ⟨address, others.take 6, rfl, hreads.imp_right fun hne => ?_⟩
    cases others with
    | nil => exact absurd rfl hne
    | cons other others => exact List.cons_ne_nil _ _

theorem outcome_eq {r r' : EStateM.Result Fault (Session σ) Code}
    (h : SameEnd AlikeSession r r') : outcome r = outcome r' := by
  cases h with
  | ok code hend => simp only [outcome, hend.io.sent, hend.drs]
  | error e => rfl

theorem effect_same {disasm : Disasm} {sinks : Sinks σ} {m : Machine} {line : CString}
    (hline : line.chars.length < 256) (hown : ReadsOwn m.info (words line.chars))
    {d d' : Debugger σ} (h : Settled sinks d) (h' : Settled sinks d')
    (hdrs : d.session.drs = d'.session.drs) :
    effect disasm m line d = effect disasm m line d' := by
  obtain ⟨buff, ptrs, hgiven⟩ := h.given hline
  obtain ⟨buff', ptrs', hgiven'⟩ := h'.given hline
  have hsame : AlikeSession d.session.fresh d'.session.fresh :=
    ⟨⟨h.session.1.trans h'.session.1.symm, rfl, h.session.2, h'.session.2⟩, hdrs⟩
  rw [hgiven.effect_eq, hgiven'.effect_eq]
  apply outcome_eq
  exact agree_exec disasm m (reads_of_pointers hgiven.pointers _)
    (reads_of_pointers hgiven'.pointers _)
    (short_of_pointers hgiven.pointers hgiven.sameLength) (readsOwn_take hown) _ _ hsame

end MidnightOS.Debug
