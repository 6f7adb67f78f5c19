import MidnightOS.Debug.DbgMsg
import MidnightOS.Debug.LineEdit
import MidnightOS.Debug.Serial

/-! # The debugger at the serial port

`dbg_getcmd` reads its line from the port and echoes it there.  Whenever the bytes come in, it
keeps the line that was typed.
-/

namespace MidnightOS.Debug

open MidnightOS.Lib

/-! ## The source -/

/-- BS, a space and BS. -/
def rubOut (chip : Chip) : SerialM Unit := do
  dbgSerialPutc chip 8
  dbgSerialPutc chip (chr ' ')
  dbgSerialPutc chip 8

/-- The loop of `dbg_getcmd`.  It returns the buffer and `*size`. -/
def getcmdLoopOn (chip : Chip) (size : Nat) :
    (fuel : Nat) → (cmd : List Byte) → (i : Nat) → SerialM (List Byte × Nat)
  | 0, _, _ => throw .endless
  | fuel + 1, cmd, i =>
    if i < size then do
      let c ← dbgSerialGetc chip
      if c = 8 ∨ c = 127 then
        if 0 < i then do
          rubOut chip
          getcmdLoopOn chip size fuel cmd (i - 1)
        else
          getcmdLoopOn chip size fuel cmd i
      else do
        dbgSerialPutc chip (if c = 13 then 10 else c)
        if c = 10 ∨ c = 13 then
          return ((cmd.set i c).set i 0, i + 1)
        else
          getcmdLoopOn chip size fuel (cmd.set i c) (i + 1)
    else
      return (cmd, i)

/-- Every round reads a byte of the stream, or a zero that fills the buffer. -/
def dbgGetcmdOn (chip : Chip) (cmd : List Byte) (size : Nat) : SerialM (List Byte × Nat) := do
  let s ← get
  getcmdLoopOn chip size (s.stream.length + size + 1) cmd 0

/-! ## What is echoed -/

/-- The text on the line, with a carriage return in front of each line feed. -/
def onLine (text : List Byte) : List Byte := text.flatMap withReturn

theorem onLine_append (text text' : List Byte) :
    onLine (text ++ text') = onLine text ++ onLine text' := List.flatMap_append

section Works

variable {chip : Chip} {s : Serial} {E : Fault → Serial → Prop}

theorem rubOut_spec (works : chip.Works) (sound : s.Sound) :
    wp (rubOut chip) (fun _ s' => s'.Open ∧ s.Moves [] (onLine [8, chr ' ', 8]) s') E s := by
  rw [rubOut, wp_bind]
  refine wp_mono (dbgSerialPutc_spec 8 works sound) ?_ (fun _ _ he => he)
  rintro _ s₁ ⟨ready₁, moves₁⟩
  rw [wp_bind]
  refine wp_mono (dbgSerialPutc_spec (chr ' ') works ready₁.sound) ?_ (fun _ _ he => he)
  rintro _ s₂ ⟨ready₂, moves₂⟩
  refine wp_mono (dbgSerialPutc_spec 8 works ready₂.sound) ?_ (fun _ _ he => he)
  rintro _ s₃ ⟨ready₃, moves₃⟩
  exact ⟨ready₃, moves₁.trans (moves₂.trans moves₃)⟩

theorem Serial.Moves.stream_le {s' : Serial} {cs text : List Byte} (moves : s.Moves cs text s') :
    cs.length + s'.stream.length ≤ s.stream.length := by
  have length := moves.reads.length_le
  rwa [List.length_append] at length

/-- The port read keys with which `getcmdLoop` comes to `out`, and echoed them. -/
def LineRead (size : Nat) (cmd : List Byte) (i : Nat) (echo : List Byte) (s : Serial)
    (out : List Byte × Nat) (s' : Serial) : Prop :=
  s'.Sound ∧ ∃ cs text, s.Moves cs (onLine text) s' ∧
    getcmdLoop size cs cmd i echo = some ⟨out.1, out.2, echo ++ text, []⟩

/-- The port read all keys, and the line goes on. -/
def LineOpen (size : Nat) (cmd : List Byte) (i : Nat) (echo : List Byte) (s : Serial) (e : Fault)
    (s' : Serial) : Prop :=
  e = .endless ∧ s'.Sound ∧ s'.stream = [] ∧ ∃ cs text, s.Moves cs (onLine text) s' ∧
    getcmdLoop size cs cmd i echo = none

section Key

variable {size i i' : Nat} {cmd cmd' echo piece : List Byte} {c : Byte} {s₁ s' : Serial}

/-- One key and its echo, and then the rest of the line. -/
theorem LineRead.key {out : List Byte × Nat} (moves : s.Moves [c] (onLine piece) s₁)
    (step : ∀ keys, getcmdLoop size (c :: keys) cmd i echo =
      getcmdLoop size keys cmd' i' (echo ++ piece))
    (h : LineRead size cmd' i' (echo ++ piece) s₁ out s') : LineRead size cmd i echo s out s' := by
  obtain ⟨sound, cs, text, rest, run⟩ := h
  refine ⟨sound, c :: cs, piece ++ text, ?_, ?_⟩
  · rw [onLine_append]
    exact moves.trans rest
  · rw [step, run, List.append_assoc]

theorem LineOpen.key {e : Fault} (moves : s.Moves [c] (onLine piece) s₁)
    (step : ∀ keys, getcmdLoop size (c :: keys) cmd i echo =
      getcmdLoop size keys cmd' i' (echo ++ piece))
    (h : LineOpen size cmd' i' (echo ++ piece) s₁ e s') : LineOpen size cmd i echo s e s' := by
  obtain ⟨endless, sound, empty, cs, text, rest, run⟩ := h
  refine ⟨endless, sound, empty, c :: cs, piece ++ text, ?_, ?_⟩
  · rw [onLine_append]
    exact moves.trans rest
  · rw [step, run]

end Key

/-- The loop does with the bytes that it reads what `getcmdLoop` does with keys. -/
theorem getcmdLoopOn_spec (works : chip.Works) {size : Nat} (fuel : Nat) (cmd : List Byte) (i : Nat)
    (echo : List Byte) (sound : s.Sound) (enough : s.stream.length < fuel) :
    wp (getcmdLoopOn chip size fuel cmd i) (LineRead size cmd i echo s)
      (LineOpen size cmd i echo s) s := by
  induction fuel generalizing cmd i echo s with
  | zero => omega
  | succ fuel ih =>
    -- the rest of the line, after a key with the echo `piece`
    have rest {c : Byte} {s₁ : Serial} {piece cmd' : List Byte} {i' : Nat} (sound₁ : s₁.Sound)
        (moves : s.Moves [c] (onLine piece) s₁)
        (step : ∀ keys, getcmdLoop size (c :: keys) cmd i echo =
          getcmdLoop size keys cmd' i' (echo ++ piece)) :
        wp (getcmdLoopOn chip size fuel cmd' i') (LineRead size cmd i echo s)
          (LineOpen size cmd i echo s) s₁ := by
      have fewer := moves.stream_le
      rw [List.length_singleton] at fewer
      exact wp_mono (ih cmd' i' (echo ++ piece) sound₁ (by omega))
        (fun _ _ h => h.key moves step) (fun _ _ h => h.key moves step)
    rw [getcmdLoopOn, wp_ite]
    refine ⟨fun room => ?_, fun full => ?_⟩
    · rw [wp_bind]
      refine wp_mono (dbgSerialGetc_spec works sound) ?_ ?_
      · rintro c s₁ ⟨ready₁, moves₁⟩
        rw [wp_ite]
        refine ⟨fun deletes => ?_, fun keeps => ?_⟩
        · rw [wp_ite]
          refine ⟨fun some => ?_, fun none => ?_⟩
          · rw [wp_bind]
            refine wp_mono (rubOut_spec works ready₁.sound) ?_ (fun _ _ he => he)
            rintro _ s₂ ⟨ready₂, moves₂⟩
            refine rest ready₂.sound (moves₁.trans moves₂) fun keys => ?_
            rw [getcmdLoop, if_pos room, if_pos deletes, if_pos some]
          · have silent : s.Moves [c] (onLine []) s₁ := moves₁
            refine rest ready₁.sound silent fun keys => ?_
            rw [getcmdLoop, if_pos room, if_pos deletes, if_neg none, List.append_nil]
        · rw [wp_bind]
          refine wp_mono (dbgSerialPutc_spec _ works ready₁.sound) ?_ (fun _ _ he => he)
          rintro _ s₂ ⟨ready₂, moves₂⟩
          have echoed : s.Moves [c] (onLine [if c = 13 then 10 else c]) s₂ := by
            simpa [onLine] using moves₁.trans moves₂
          rw [wp_ite]
          refine ⟨fun ends => ?_, fun goes => ?_⟩
          · refine ⟨ready₂.sound, [c], _, echoed, ?_⟩
            rw [getcmdLoop, if_pos room, if_neg keeps, if_pos ends]
          · refine rest ready₂.sound echoed fun keys => ?_
            rw [getcmdLoop, if_pos room, if_neg keeps, if_neg goes]
      · rintro e s₁ ⟨endless, empty, ready₁, moves₁⟩
        refine ⟨endless, ready₁.sound, empty, [], [], moves₁, ?_⟩
        rw [getcmdLoop, if_pos room]
    · refine ⟨sound, [], [], .refl s, ?_⟩
      rw [getcmdLoop, if_neg full, List.append_nil]

/-- What comes in after the line is left for later. -/
theorem getcmdLoop_append {size : Nat} {keys cmd echo : List Byte} {i : Nat} {typed : Typed}
    (h : getcmdLoop size keys cmd i echo = some typed) (more : List Byte) :
    getcmdLoop size (keys ++ more) cmd i echo = some { typed with keys := typed.keys ++ more } := by
  induction keys generalizing cmd i echo with
  | nil =>
    rw [getcmdLoop] at h
    by_cases room : i < size
    · simp [room] at h
    · rw [if_neg room] at h
      cases h
      cases more with
      | nil => simp [getcmdLoop, room]
      | cons c more => simp [getcmdLoop, room]
  | cons c keys ih =>
    rw [getcmdLoop] at h
    rw [List.cons_append, getcmdLoop]
    by_cases room : i < size
    · rw [if_pos room] at h ⊢
      by_cases deletes : c = 8 ∨ c = 127
      · rw [if_pos deletes] at h ⊢
        by_cases some : 0 < i
        · rw [if_pos some] at h ⊢
          exact ih h
        · rw [if_neg some] at h ⊢
          exact ih h
      · rw [if_neg deletes] at h ⊢
        by_cases ends : c = 10 ∨ c = 13
        · simp only [if_pos ends] at h ⊢
          cases h
          rfl
        · simp only [if_neg ends] at h ⊢
          exact ih h
    · rw [if_neg room] at h ⊢
      cases h
      rfl

/-- Where the chip does not overrun, `dbg_getcmd` does on the port what it does with the keys that
were typed. -/
theorem dbgGetcmdOn_typed (works : chip.Works) (cmd : List Byte) (size : Nat) (sound : s.Sound) :
    wp (dbgGetcmdOn chip cmd size)
      (fun out s' => s'.Sound ∧ (s.uart.overrun = true → s'.uart.overrun = true) ∧
        (s'.uart.overrun = false → ∃ text, s'.uart.wire = s.uart.wire ++ onLine text ∧
          dbgGetcmd s.stream cmd size = some ⟨out.1, out.2, text, s'.stream⟩))
      (fun e s' => e = .endless ∧ s'.Sound ∧ (s.uart.overrun = true → s'.uart.overrun = true) ∧
        (s'.uart.overrun = false → dbgGetcmd s.stream cmd size = none)) s := by
  rw [dbgGetcmdOn, wp_bind, wp_get]
  refine wp_mono (getcmdLoopOn_spec works _ cmd 0 [] sound (by omega)) ?_ ?_
  · rintro out s' ⟨sound', cs, text, moves, run⟩
    refine ⟨sound', moves.recorded, fun all => ⟨text, moves.wire, ?_⟩⟩
    have whole := getcmdLoop_append run s'.stream
    rw [moves.all all] at whole
    exact whole
  · rintro e s' ⟨endless, sound', empty, cs, text, moves, run⟩
    refine ⟨endless, sound', moves.recorded, fun all => ?_⟩
    have whole := moves.all all
    rw [empty, List.append_nil] at whole
    rw [← whole]
    exact run

/-- However the bytes of a line come in: unless the chip overruns, the debugger keeps the line as
it was edited, echoes it and leaves the bytes behind it, and it waits for ever only for the end of
the line. -/
theorem dbgGetcmdOn_keeps (works : chip.Works) {cmd : List Byte} {size : Nat}
    (room : size ≤ cmd.length) (sound : s.Sound) :
    wp (dbgGetcmdOn chip cmd size)
      (fun out s' => s'.uart.overrun = false → ∃ text,
        s'.uart.wire = s.uart.wire ++ onLine text ∧
        dbgGetcmd s.stream cmd size = some ⟨out.1, out.2, text, s'.stream⟩ ∧
        EditsTo size s.stream [] ⟨out.1, out.2, text, s'.stream⟩)
      (fun e s' => e = .endless ∧
        (s'.uart.overrun = false → dbgGetcmd s.stream cmd size = none)) s := by
  refine wp_mono (dbgGetcmdOn_typed works cmd size sound) ?_ ?_
  · rintro out s' ⟨-, -, typed⟩ all
    obtain ⟨text, wire, run⟩ := typed all
    exact ⟨text, wire, run, dbgGetcmd_edits room run⟩
  · rintro e s' ⟨endless, -, -, waits⟩
    exact ⟨endless, waits⟩

end Works

/-- `s`, deleted, `c` and the return key, in three parts. -/
theorem dbgGetcmdOn_keeps_step :
    wp (dbgGetcmdOn pc16550 [0, 0, 0, 0] 4)
      (fun out s' => s'.uart.overrun = false → ∃ text,
        s'.uart.wire = (powered [[chr 's'], [], [8, chr 'c'], [13]]).uart.wire ++ onLine text ∧
        dbgGetcmd (powered [[chr 's'], [], [8, chr 'c'], [13]]).stream [0, 0, 0, 0] 4 =
          some ⟨out.1, out.2, text, s'.stream⟩ ∧
        EditsTo 4 (powered [[chr 's'], [], [8, chr 'c'], [13]]).stream []
          ⟨out.1, out.2, text, s'.stream⟩)
      (fun e s' => e = .endless ∧ (s'.uart.overrun = false →
        dbgGetcmd (powered [[chr 's'], [], [8, chr 'c'], [13]]).stream [0, 0, 0, 0] 4 = none))
      (powered [[chr 's'], [], [8, chr 'c'], [13]]) := by
  have sound := powered_sound [[chr 's'], [], [8, chr 'c'], [13]]
  generalize powered [[chr 's'], [], [8, chr 'c'], [13]] = s at sound ⊢
  exact dbgGetcmdOn_keeps pc16550_works (by decide) sound

end MidnightOS.Debug
