import MidnightOS.Debug.History
import MidnightOS.Debug.LineEdit

/-! # Arguments of earlier commands

`x` does not check how many arguments it is given.  After an earlier command with more
arguments it takes the missing ones from there; on a fresh debugger it reads through
a null pointer.
-/

namespace MidnightOS.Debug

open MidnightOS.Lib
open MidnightOS.Arch (U64 IntInfo)

variable {σ : Type}

/-! ## A missing argument -/

theorem argIs_stops {argv : Argv} {i : Nat} {e : Fault} (h : argv i = .error e) (name : CString) :
    (argIs argv i name : HandlerM σ Bool) = throw e := by
  unfold argIs
  rw [h]
  rfl

theorem argAtol_stops {argv : Argv} {i : Nat} {e : Fault} (h : argv i = .error e) :
    (argAtol argv i : HandlerM σ U64) = throw e := by
  unfold argAtol
  rw [h]
  rfl

theorem throw_bind {α β : Type} (e : Fault) (f : α → HandlerM σ β) :
    (throw e >>= f : HandlerM σ β) = throw e := rfl

theorem argBase_stops {argv : Argv} {e : Fault} (h : argv 0 = .error e) (info : IntInfo) :
    (argBase info argv : HandlerM σ U64) = throw e := by
  -- the first comparison is with `rax`
  have hfind : (findReg argv (regsArray info) : HandlerM σ (Option U64)) = throw e := by
    rw [regsArray, findReg, argIs_stops h, throw_bind]
  rw [argBase, hfind, throw_bind]

/-- An `x` that reads the argument behind those it was given. -/
theorem dumphex_stops {m : Machine} {argv : Argv} {args : List (List Byte)} {e : Fault}
    (hreads : Reads argv args) (hstale : ¬DumpReads m.info args)
    (hend : argv args.length = .error e) (argc : Nat) :
    (dbgDoDumphex m argc argv : HandlerM σ Code) = throw e := by
  unfold dbgDoDumphex
  cases args with
  | nil => rw [argBase_stops hend, throw_bind]
  | cons address rest =>
    have hbase : addressOf m.info address ≠ 0 := fun hzero => hstale ⟨address, rest, rfl, .inl hzero⟩
    have hrest : rest = [] := by
      by_contra hne
      exact hstale ⟨address, rest, rfl, .inr hne⟩
    subst hrest
    have hsecond : argv 1 = .error e := hend
    rw [argBase_eq hreads rfl, pure_bind, if_neg hbase, argAtol_stops hsecond, throw_bind]

/-- The line runs `x`. -/
theorem exec_x (disasm : Disasm) (m : Machine) {argv : Argv} {args : List (List Byte)}
    (h : Reads argv ((CString.literal "x").chars :: args)) :
    (dbgExec disasm m (args.length + 1) argv : HandlerM σ Code) =
      dbgDoDumphex m args.length fun i => argv (i + 1) := by
  have hfirst : ((CString.literal "x").chars :: args)[0]? = some (CString.literal "x").chars := rfl
  have hc : (CString.literal "x").chars ≠ (CString.literal "c").chars := by decide
  have hs : (CString.literal "x").chars ≠ (CString.literal "s").chars := by decide
  have hreg : (CString.literal "x").chars ≠ (CString.literal "reg").chars := by decide
  have hhbp : (CString.literal "x").chars ≠ (CString.literal "hbp").chars := by decide
  rw [dbgExec, if_neg (Nat.succ_ne_zero _), cmdTable, execTable_cons h hfirst, if_neg hc,
    execTable_cons h hfirst, if_neg hs, execTable_cons h hfirst, if_neg hreg,
    execTable_cons h hfirst, if_neg hhbp, execTable_cons h hfirst, if_pos rfl, Nat.add_sub_cancel]

/-! ## An argument left over -/

/-- Every run ends normally, with the empty cell empty. -/
structure Finishes {α : Type} (x : HandlerM σ α) : Prop where
  ends : ∀ s, Clean s.io.buffs → wp x (fun _ s' => Clean s'.io.buffs) (fun _ _ => False) s

theorem Finishes.pure {α : Type} (a : α) : Finishes (pure a : HandlerM σ α) := ⟨fun _ h => h⟩

theorem Finishes.bind {α β : Type} {x : HandlerM σ α} {f : α → HandlerM σ β} (hx : Finishes x)
    (hf : ∀ a, Finishes (f a)) : Finishes (x >>= f) := by
  constructor
  intro s hs
  rw [wp_bind]
  exact wp_mono (hx.ends s hs) (fun a s' hs' => (hf a).ends s' hs') fun _ _ h => h

theorem Finishes.ite {α : Type} {c : Prop} [Decidable c] {x y : HandlerM σ α} (hx : Finishes x)
    (hy : Finishes y) : Finishes (if c then x else y) := by
  constructor
  intro s hs
  rw [wp_ite]
  exact ⟨fun _ => hx.ends s hs, fun _ => hy.ends s hs⟩

theorem finishes_say {fmt : String} {ds : List Directive} {args : List Arg} (h : Sayable fmt ds)
    (hmatch : Matching ds args) (hweights : weights args < 2 ^ 32) :
    Finishes (dbgSay fmt args : HandlerM σ Unit) := by
  obtain ⟨hds, hplain, hliterals⟩ := h
  subst hds
  obtain ⟨out, hlength, hout⟩ := plain_render hplain hmatch
  constructor
  intro s hs
  obtain ⟨buffs, hclean, hrender⟩ := hout s.io.buffs hs
  have hsay : dbgSay fmt args s = .ok () { s with io := { s.io with buffs }.send out } := by
    unfold dbgSay
    rw [dbgMsg_spec hrender (by omega)]
  exact wp_of_ok hsay hclean

theorem finishes_dumpLoop (mem : U64 → Byte) (n : Nat) (base : U64) (c : Nat) :
    Finishes (dumpLoop mem n base c : HandlerM σ Unit) := by
  induction n generalizing base c with
  | zero => exact .pure ()
  | succ n ih =>
    have hbyte : Sayable "0x%b " [.b] := by decide
    have hblank : Sayable " " [] := by decide
    have haddress : Sayable "\n0x%lx: " [.lx] := by decide
    have hnext : ∀ base c, Finishes
        (if c = 16 ∧ 0 < n then do
            dbgSay "\n0x%lx: " [.long base]
            dumpLoop mem n base 0
          else dumpLoop mem n base c : HandlerM σ Unit) := fun base c =>
      .ite (.bind (finishes_say haddress ⟨rfl, trivial⟩ (long_fits _)) fun _ => ih _ _) (ih _ _)
    refine .bind (finishes_say hbyte ⟨rfl, trivial⟩ (int_fits _)) fun _ => ?_
    exact .ite (.bind (finishes_say hblank trivial (by decide)) fun _ => hnext _ _) (hnext _ _)

theorem finishes_dumphex (m : Machine) {argv : Argv} {args : List (List Byte)}
    (h : Reads argv args) (hreads : DumpReads m.info args) (argc : Nat) :
    Finishes (dbgDoDumphex m argc argv : HandlerM σ Code) := by
  obtain ⟨address, rest, rfl, hreads⟩ := hreads
  unfold dbgDoDumphex
  rw [argBase_eq h rfl, pure_bind]
  by_cases hbase : addressOf m.info address = 0
  · rw [if_pos hbase]
    exact .pure _
  · rw [if_neg hbase]
    cases rest with
    | nil => exact absurd rfl (hreads.resolve_left hbase)
    | cons size rest =>
      have haddress : Sayable "0x%lx: " [.lx] := by decide
      have hnewline : Sayable "\n" [] := by decide
      rw [argAtol_eq h rfl, pure_bind]
      refine .bind (finishes_say haddress ⟨rfl, trivial⟩ (long_fits _)) fun _ => ?_
      refine .bind (finishes_dumpLoop _ _ _ _) fun _ => ?_
      exact .bind (finishes_say hnewline trivial (by decide)) fun _ => .pure _

/-! ## Two histories -/

/-- Eight words were typed before, and the last cell of the buffer was never reached. -/
structure LeftOver (d : Debugger σ) : Prop where
  pointers : ∀ i < 8, ∃ p < 256, d.argvBuffer[i]? = some (some p)
  last : d.cmdBuffer[255]? = some 0

theorem LeftOver.last_cell {d : Debugger σ} (h : LeftOver d) {line : CString}
    (hline : line.chars.length < 256) {buff : List Byte} {ptrs : List Nat}
    (hgiven : Given line d buff ptrs) : buff[255]? = some 0 := by
  obtain ⟨mid, hmid, hbuff⟩ := hgiven.rest
  rw [hbuff]
  by_cases hfull : line.chars.length = 255
  · rw [List.getElem?_append_right (by omega), hmid, hfull]
    rfl
  · obtain ⟨k, hk⟩ : ∃ k, 255 - mid.length = k + 1 := ⟨254 - mid.length, by omega⟩
    rw [List.getElem?_append_right (by omega), hk, List.getElem?_cons_succ, List.getElem?_drop,
      show line.chars.length + 1 + k = 255 by omega]
    exact h.last

/-- Every argument can be read, whether it was typed now or before. -/
theorem LeftOver.argument {d : Debugger σ} (h : LeftOver d) {line : CString}
    (hline : line.chars.length < 256) {buff : List Byte} {ptrs : List Nat}
    (hgiven : Given line d buff ptrs) {i : Nat} (hi : i < 8) :
    ∃ str, argvOf buff (ptrs.map some ++ d.argvBuffer.drop ptrs.length) i = .ok str ∧ 0 ∈ str := by
  by_cases htyped : i < ptrs.length
  · have hword : i < ((words line.chars).take 8).length := by rwa [hgiven.pointers.length_eq]
    obtain ⟨str, hargv, hnul, _⟩ := reads_of_pointers hgiven.pointers
      (d.argvBuffer.drop ptrs.length) i _ (List.getElem?_eq_getElem hword)
    exact ⟨str, hargv, hnul⟩
  · obtain ⟨p, hp, hptr⟩ := h.pointers i hi
    refine ⟨buff.drop p, argvOf_some ?_ buff, ?_⟩
    · rw [List.getElem?_append_right (by simpa using htyped), List.length_map,
        List.getElem?_drop, show ptrs.length + (i - ptrs.length) = i by omega]
      exact hptr
    · have hlast : (buff.drop p)[255 - p]? = some 0 := by
        rw [List.getElem?_drop, show p + (255 - p) = 255 by omega]
        exact h.last_cell hline hgiven
      exact List.mem_of_getElem? hlast

theorem LeftOver.effect_ok (disasm : Disasm) {sinks : Sinks σ} (m : Machine) {d : Debugger σ}
    (h : LeftOver d) (hsettled : Settled sinks d) {line : CString}
    (hline : line.chars.length < 256) {args : List (List Byte)}
    (hwords : words line.chars = (CString.literal "x").chars :: args) :
    ∃ seen, effect disasm m line d = .ok seen := by
  obtain ⟨buff, ptrs, hgiven⟩ := hsettled.given hline
  obtain ⟨str₁, hargv₁, hnul₁⟩ := h.argument hline hgiven (show 1 < 8 by omega)
  obtain ⟨str₂, hargv₂, hnul₂⟩ := h.argument hline hgiven (show 2 < 8 by omega)
  have htyped := reads_of_pointers hgiven.pointers (d.argvBuffer.drop ptrs.length)
  rw [hgiven.effect_eq]
  rw [hwords, List.take_succ_cons] at htyped ⊢
  -- the two arguments that `x` reads, whoever gave them
  have hreads : Reads
      (fun i => argvOf buff (ptrs.map some ++ d.argvBuffer.drop ptrs.length) (i + 1))
      [textOf str₁, textOf str₂] := by
    intro i word hi
    match i with
    | 0 =>
      cases hi
      exact ⟨str₁, hargv₁, hnul₁, rfl⟩
    | 1 =>
      cases hi
      exact ⟨str₂, hargv₂, hnul₂, rfl⟩
    | i + 2 => cases hi
  have hfinish := (finishes_dumphex m hreads
    ⟨textOf str₁, [textOf str₂], rfl, .inr (List.cons_ne_nil _ _)⟩ (args.take 7).length).ends
    d.session.fresh hsettled.session.2
  rw [List.length_cons, exec_x disasm m htyped]
  unfold wp at hfinish
  cases hrun : dbgDoDumphex m (args.take 7).length
      (fun i => argvOf buff (ptrs.map some ++ d.argvBuffer.drop ptrs.length) (i + 1))
      d.session.fresh with
  | ok code session => exact ⟨_, rfl⟩
  | error e session =>
    rw [hrun] at hfinish
    exact absurd hfinish id

/-- `c 0 0 0 0 0 0 0` as it was typed. -/
def eightWords : List Byte := chr 'c' :: (List.replicate 7 [chr ' ', chr '0']).flatten

/-- The buffer after that command. -/
def eightPieces : List Byte :=
  chr 'c' :: 0 :: (List.replicate 7 [chr '0', 0]).flatten ++ List.replicate 240 0

def eightPointers : List (Option Nat) := (List.range 8).map fun i => some (2 * i)

theorem eightWords_typed :
    dbgGetcmd (eightWords ++ [13]) (List.replicate 256 0) 256 =
      some ⟨eightWords ++ 0 :: List.replicate 240 0, 16, eightWords ++ [10], []⟩ :=
  dbgGetcmd_line (by decide) 240

theorem eightWords_parsed :
    dbgParsecmd (eightWords ++ 0 :: List.replicate 240 0) (List.replicate 8 none) 8 =
      .ok ⟨eightPieces, eightPointers, 8⟩ := by
  decide +kernel

theorem eightWords_run (disasm : Disasm) (m : Machine) (sinks : Sinks σ) (drs : DebugRegs) :
    History disasm sinks ⟨(Debugger.boot sinks drs).session, eightPieces, eightPointers⟩ := by
  have hrun : runLine disasm m { Debugger.boot sinks drs with
      cmdBuffer := eightWords ++ 0 :: List.replicate 240 0 } =
      .ok (.continue, ⟨(Debugger.boot sinks drs).session, eightPieces, eightPointers⟩) := by
    unfold runLine
    rw [Debugger.boot, eightWords_parsed]
    rfl
  exact .ran (.typed (.boot drs) eightWords_typed) hrun

theorem eightWords_leftOver (sinks : Sinks σ) (drs : DebugRegs) :
    LeftOver ⟨(Debugger.boot sinks drs).session, eightPieces, eightPointers⟩ := by
  have hlast : eightPieces[255]? = some 0 := rfl
  refine ⟨fun i hi => ⟨2 * i, by omega, ?_⟩, hlast⟩
  simp [eightPointers, hi]

/-! ## Independence of the history -/

theorem stops_at_boot {disasm : Disasm} {sinks : Sinks σ} {m : Machine} {drs : DebugRegs}
    {line : CString} (hline : line.chars.length < 256) {args : List (List Byte)}
    (hwords : words line.chars = (CString.literal "x").chars :: args)
    (hstale : ¬DumpReads m.info args) :
    effect disasm m line (.boot sinks drs) = .error .null := by
  have hboot : History disasm sinks (.boot sinks drs) := .boot drs
  have hsettled := hboot.settled
  obtain ⟨buff, ptrs, hgiven⟩ := hsettled.given hline
  have htyped := reads_of_pointers hgiven.pointers
    ((Debugger.boot sinks drs).argvBuffer.drop ptrs.length)
  have hcount := hgiven.pointers.length_eq
  -- two words at most, so there was room for all of them
  have hshort : args.length ≤ 1 := by
    by_contra hmore
    match args with
    | [] => exact hmore (Nat.zero_le _)
    | [_] => exact hmore (Nat.le_refl _)
    | address :: size :: rest =>
      exact hstale ⟨address, size :: rest, rfl, .inr (List.cons_ne_nil _ _)⟩
  have hall : args.take 7 = args := List.take_of_length_le (by omega)
  rw [hgiven.effect_eq]
  rw [hwords, List.take_succ_cons, hall] at htyped hcount ⊢
  rw [List.length_cons] at hcount
  have hend : argvOf buff
      (ptrs.map some ++ (Debugger.boot sinks drs).argvBuffer.drop ptrs.length) (args.length + 1) =
      .error .null := by
    apply argvOf_none
    rw [List.getElem?_append_right (by rw [List.length_map]; omega), List.length_map, hcount,
      Nat.sub_self, List.getElem?_drop]
    match hlength : ptrs.length with
    | 1 => rfl
    | 2 => rfl
    | 0 => omega
    | n + 3 => omega
  rw [List.length_cons, exec_x disasm m htyped, dumphex_stops htyped.tail hstale hend]
  rfl

/-- A line has the same effect after every history exactly when it is not an `x` that reads an
argument it was not given. -/
theorem effect_independent_iff (disasm : Disasm) (sinks : Sinks σ) (m : Machine) (line : CString)
    (hline : line.chars.length < 256) :
    (∀ d d', History disasm sinks d → History disasm sinks d' → d.session.drs = d'.session.drs →
      effect disasm m line d = effect disasm m line d') ↔
      ReadsOwn m.info (words line.chars) := by
  constructor
  · intro hsame args hwords
    by_contra hstale
    have drs : DebugRegs := ⟨0, 0, 0, 0, 0⟩
    have hhistory := eightWords_run disasm m sinks drs
    obtain ⟨seen, hseen⟩ := (eightWords_leftOver sinks drs).effect_ok disasm m
      hhistory.settled hline hwords
    have heq := hsame _ _ (.boot drs) hhistory rfl
    rw [stops_at_boot hline hwords hstale, hseen] at heq
    cases heq
  · intro hown d d' h h' hdrs
    exact effect_same hline hown h.settled h'.settled hdrs

/-- A program stopped at `0x1000`, in a memory of zeros. -/
def stopped : Machine :=
  ⟨⟨⟨0, 0, 0, 0, 0, 0, 0, 0, 0, 0, 0, 0, 0, 0, 0, 0⟩, ⟨0, 0x1000, 0, 0, 0, 0⟩⟩, fun _ => 0⟩

/-- The serial port is the only sink. -/
def serial : Sinks Unit := fun i => if i.val = 0 then some () else none

/-- A dump with both of its arguments. -/
theorem effect_independent_dump :
    ReadsOwn stopped.info (words (CString.literal "x rip 3").chars) ∧
      ∀ d d', History (fun _ _ => none) serial d → History (fun _ _ => none) serial d' →
        d.session.drs = d'.session.drs →
        effect (fun _ _ => none) stopped (.literal "x rip 3") d =
          effect (fun _ _ => none) stopped (.literal "x rip 3") d' := by
  have hwords : words (CString.literal "x rip 3").chars =
      [(CString.literal "x").chars, (CString.literal "rip").chars, (CString.literal "3").chars] := by
    decide
  have hown : ReadsOwn stopped.info (words (CString.literal "x rip 3").chars) := by
    intro args hargs
    rw [hwords] at hargs
    rw [← (List.cons.inj hargs).2]
    exact ⟨_, _, rfl, .inr (List.cons_ne_nil _ _)⟩
  exact ⟨hown, (effect_independent_iff _ _ _ (.literal "x rip 3") (by decide)).mpr hown⟩

/-- `s stack 5`, or another digit. -/
def stepLine (digit : Byte) : List Byte :=
  [chr 's', chr ' ', chr 's', chr 't', chr 'a', chr 'c', chr 'k', chr ' ', digit]

/-- The buffer after that command. -/
def stepPieces (digit : Byte) : List Byte :=
  [chr 's', 0, chr 's', chr 't', chr 'a', chr 'c', chr 'k', 0, digit, 0] ++ List.replicate 246 0

def stepPointers : List (Option Nat) := [some 0, some 2, some 8] ++ List.replicate 5 none

theorem step_run {digit : Byte} (h : digit = chr '5' ∨ digit = chr '6') :
    History (fun _ _ => none) serial
      ⟨(Debugger.boot serial ⟨0, 0, 0, 0, 0⟩).session, stepPieces digit, stepPointers⟩ := by
  have hplain : ∀ c ∈ stepLine digit, ¬(c = 8 ∨ c = 127) ∧ ¬(c = 10 ∨ c = 13) := by
    cases h with
    | inl hfive => subst digit; decide
    | inr hsix => subst digit; decide
  have htyped : dbgGetcmd (stepLine digit ++ [13]) (List.replicate 256 0) 256 =
      some ⟨stepLine digit ++ List.replicate 247 0, 10, stepLine digit ++ [10], []⟩ :=
    dbgGetcmd_line hplain 246
  have hall : ∀ digit ∈ [chr '5', chr '6'],
      dbgParsecmd (stepLine digit ++ List.replicate 247 0) (List.replicate 8 none) 8 =
        .ok ⟨stepPieces digit, stepPointers, 3⟩ := by
    decide +kernel
  have hparsed := hall digit (by simpa using h)
  have hrun : runLine (fun _ _ => none) stopped { Debugger.boot serial ⟨0, 0, 0, 0, 0⟩ with
      cmdBuffer := stepLine digit ++ List.replicate 247 0 } =
      .ok (.step, ⟨(Debugger.boot serial ⟨0, 0, 0, 0, 0⟩).session, stepPieces digit,
        stepPointers⟩) := by
    unfold runLine
    rw [Debugger.boot, hparsed]
    rfl
  exact .ran (.typed (.boot _) htyped) hrun

/-- `x rip` after `s stack 5` and after `s stack 6`. -/
theorem effect_depends_on_history :
    ¬∀ (disasm : Disasm) (sinks : Sinks Unit) (m : Machine) (line : CString),
      line.chars.length < 256 → ∀ d d', History disasm sinks d → History disasm sinks d' →
        d.session.drs = d'.session.drs → effect disasm m line d = effect disasm m line d' := by
  intro h
  have hsame := h (fun _ _ => none) serial stopped (.literal "x rip") (by decide) _ _
    (step_run (.inl rfl)) (step_run (.inr rfl)) rfl
  exact absurd hsame (by decide +kernel)

end MidnightOS.Debug
