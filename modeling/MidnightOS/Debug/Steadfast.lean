import MidnightOS.Debug.SameEffect

/-! # What no command changes

The sinks stay registered, and the cell behind the two digits of `u8_to_hstr` stays
empty.
-/

namespace MidnightOS.Debug

open MidnightOS.Lib
open MidnightOS.Arch (U64 IntInfo)

variable {σ : Type}

/-- The file as every message leaves it. -/
def Steadfast (sinks : Sinks σ) (s : DbgIo σ) : Prop := s.sinks = sinks ∧ Clean s.buffs

/-! ## Messages -/

section Messages

variable {sinks : Sinks σ}

theorem keeps_charAt (str : Chars) (i : Nat) :
    Keeps (Steadfast sinks) (charAt str i : DbgM σ Byte) := by
  unfold charAt
  cases str[i]? with
  | none => exact .throw _
  | some c => exact .pure c

theorem keeps_strlen (str : Chars) : Keeps (Steadfast sinks) (dbgStrlen str : DbgM σ Nat) := by
  induction str with
  | nil => exact .throw _
  | cons c str ih => exact .ite (ih.map _) (.pure 0)

theorem keeps_runLength (fmt : Chars) : Keeps (Steadfast sinks) (runLength fmt : DbgM σ Nat) := by
  induction fmt with
  | nil => exact .throw _
  | cons c fmt ih => exact .ite (ih.map _) (.pure 0)

theorem keeps_printStr (str : Chars) (len : Nat) :
    Keeps (Steadfast sinks) (dbgInternalPrintStr str len : DbgM σ Unit) := by
  induction len generalizing str with
  | zero =>
    rw [dbgInternalPrintStr]
    exact .pure ()
  | succ len ih =>
    cases str with
    | nil => exact .throw _
    | cons c str => exact .bind (.modify fun s h => h) fun _ => ih str

theorem keeps_printAmount (str : Chars) (amount : Nat) (fmt : Chars) (params : List Arg)
    (written : Nat) :
    Keeps (Steadfast sinks) (printAmount str amount fmt params written : DbgM σ Round) :=
  .ite (.pure _) (.bind (keeps_printStr _ _) fun _ => .pure _)

theorem keeps_printString (str fmt : Chars) (params : List Arg) (written : Nat) :
    Keeps (Steadfast sinks) (printString str fmt params written : DbgM σ Round) :=
  .bind (keeps_strlen _) fun _ => keeps_printAmount _ _ _ _ _

/-- No routine writes the cells behind the digits of `u8_to_hstr`. -/
theorem keeps_convert {name : StrBuffName} {stores : Option (List Store)}
    (h : name = .toH8 → ∃ v, stores = some (hexStores 2 8 v)) :
    Keeps (Steadfast sinks) (onBuffs (convert name stores) : DbgM σ Chars) := by
  intro s str s' hs hrun
  unfold onBuffs at hrun
  cases hconvert : convert name stores s.buffs with
  | error e buffs => rw [hconvert] at hrun; cases hrun
  | ok str' buffs =>
    rw [hconvert] at hrun
    cases hrun
    refine ⟨hs.1, ?_⟩
    rw [convert, get_bind] at hconvert
    cases stores with
    | none => cases hconvert
    | some stores =>
      cases hmake : makeStores stores (s.buffs name) with
      | error e => simp only [hmake] at hconvert; cases hconvert
      | ok buff =>
        simp only [hmake] at hconvert
        cases hconvert
        -- only `toH8StrBuff` is promised to stay clean
        apply clean_update hs.2
        intro hname
        obtain ⟨v, hstores⟩ := h hname
        cases hstores
        rw [makeStores_unwritten hmake (by rw [written_hexStores]; simp), hname]
        exact hs.2

theorem keeps_routine {routine : BuffM Chars}
    (h : Keeps (Steadfast sinks) (onBuffs routine : DbgM σ Chars)) (fmt : Chars)
    (params : List Arg) (written : Nat) :
    Keeps (Steadfast sinks)
      (onBuffs routine >>= fun str => printString str fmt params written : DbgM σ Round) :=
  h.bind fun _ => keeps_printString _ _ _ _

theorem keeps_vaArgInt (params : List Arg) :
    Keeps (Steadfast sinks) (vaArgInt params : DbgM σ (BitVec 32 × List Arg)) := by
  unfold vaArgInt
  split
  · exact .pure _
  · exact .throw _

theorem keeps_vaArgLong (params : List Arg) :
    Keeps (Steadfast sinks) (vaArgLong params : DbgM σ (BitVec 64 × List Arg)) := by
  unfold vaArgLong
  split
  · exact .pure _
  · exact .throw _

theorem keeps_vaArgString (params : List Arg) :
    Keeps (Steadfast sinks) (vaArgString params : DbgM σ (CString × List Arg)) := by
  unfold vaArgString
  split
  · exact .pure _
  · exact .throw _

theorem keeps_atLong (fmt : Chars) (c : Byte) :
    Keeps (Steadfast sinks) (atLong fmt c : DbgM σ Bool) :=
  .bind (keeps_charAt _ _) fun _ => .ite (.bind (keeps_charAt _ _) fun _ => .pure _) (.pure _)

theorem keeps_directiveRound (fmtBegunAt fmt : Chars) (params : List Arg) (written : Nat) :
    Keeps (Steadfast sinks) (directiveRound fmtBegunAt fmt params written : DbgM σ Round) := by
  have hi64 : ∀ v, Keeps (Steadfast sinks) (onBuffs (s64ToStr v) : DbgM σ Chars) :=
    fun v => keeps_convert fun h => by cases h
  have hu64 : ∀ v, Keeps (Steadfast sinks) (onBuffs (u64ToStr v) : DbgM σ Chars) :=
    fun v => keeps_convert fun h => by cases h
  have hh8 : ∀ v, Keeps (Steadfast sinks) (onBuffs (u8ToHstr v) : DbgM σ Chars) :=
    fun v => keeps_convert fun _ => ⟨_, rfl⟩
  have hh32 : ∀ v, Keeps (Steadfast sinks) (onBuffs (u32ToHstr v) : DbgM σ Chars) :=
    fun v => keeps_convert fun h => by cases h
  have hh64 : ∀ v, Keeps (Steadfast sinks) (onBuffs (u64ToHstr v) : DbgM σ Chars) :=
    fun v => keeps_convert fun h => by cases h
  refine .bind (keeps_charAt _ _) fun c => ?_
  refine .ite (.bind (keeps_vaArgInt _) fun _ => keeps_printAmount _ _ _ _ _) ?_
  refine .ite (.bind (keeps_vaArgString _) fun _ => keeps_printString _ _ _ _) ?_
  refine .ite (.bind (keeps_vaArgInt _) fun _ => keeps_routine (hi64 _) _ _ _) ?_
  refine .bind (keeps_atLong _ _) fun ld => ?_
  -- `ld` and `li` lead to the same case
  dsimp only
  refine .ite_bind (.pure _) (keeps_atLong _ _) fun li => ?_
  refine .ite (.bind (keeps_vaArgLong _) fun _ => keeps_routine (hi64 _) _ _ _) ?_
  refine .ite (.bind (keeps_vaArgInt _) fun _ => keeps_routine (hu64 _) _ _ _) ?_
  refine .bind (keeps_atLong _ _) fun lu => ?_
  refine .ite (.bind (keeps_vaArgLong _) fun _ => keeps_routine (hu64 _) _ _ _) ?_
  refine .ite (.bind (keeps_vaArgInt _) fun _ => keeps_routine (hh8 _) _ _ _) ?_
  refine .ite (.bind (keeps_vaArgInt _) fun _ => keeps_routine (hh32 _) _ _ _) ?_
  refine .bind (keeps_atLong _ _) fun lx => ?_
  refine .ite (.bind (keeps_vaArgLong _) fun _ => keeps_routine (hh64 _) _ _ _) ?_
  exact .bind (keeps_strlen _) fun _ => keeps_printAmount _ _ _ _ _

theorem keeps_printRound (fmt : Chars) (params : List Arg) (written : Nat) :
    Keeps (Steadfast sinks) (printRound fmt params written : DbgM σ Round) := by
  have hliteral : Keeps (Steadfast sinks) (atLiteral fmt : DbgM σ Bool) :=
    .bind (keeps_charAt _ _) fun _ => .ite (.pure _) (.bind (keeps_charAt _ _) fun _ => .pure _)
  refine hliteral.bind fun literal => ?_
  refine .ite ?_ (keeps_directiveRound _ _ _ _)
  exact .bind (keeps_charAt _ _) fun _ => .bind (keeps_runLength _) fun _ =>
    keeps_printAmount _ _ _ _ _

theorem keeps_printLoop (fuel : Nat) (fmt : Chars) (params : List Arg) (written : Nat) :
    Keeps (Steadfast sinks) (printLoop fuel fmt params written : DbgM σ Nat) := by
  induction fuel generalizing fmt params written with
  | zero => exact .throw _
  | succ fuel ih =>
    refine .bind (keeps_charAt _ _) fun c => .ite (.pure _) ?_
    refine .bind (keeps_printRound _ _ _) fun round => ?_
    cases round with
    | next fmt params written => exact ih fmt params written
    | stop result => exact .pure result

theorem keeps_dbgMsg (fmt : CString) (args : List Arg) :
    Keeps (Steadfast sinks) (dbgMsg fmt args : DbgM σ Nat) :=
  keeps_printLoop _ _ _ _

end Messages

/-! ## Commands -/

section Commands

variable {sinks : Sinks σ}

/-- The session as every command leaves it. -/
def SteadfastSession (sinks : Sinks σ) (s : Session σ) : Prop := Steadfast sinks s.io

theorem keeps_say (fmt : String) (args : List Arg) :
    Keeps (SteadfastSession sinks) (dbgSay fmt args : HandlerM σ Unit) := by
  intro s u s' hs hrun
  unfold dbgSay at hrun
  cases hmsg : dbgMsg (.literal fmt) args s.io with
  | error e io => rw [hmsg] at hrun; cases hrun
  | ok n io =>
    rw [hmsg] at hrun
    cases hrun
    exact keeps_dbgMsg _ _ _ _ _ hs hmsg

theorem keeps_fetch {α : Type} (value : Except Fault α) :
    Keeps (SteadfastSession sinks) (fetch value : HandlerM σ α) := by
  cases value with
  | ok a => exact .pure a
  | error e => exact .throw e

theorem keeps_findReg (argv : Argv) (regs : List (CString × U64)) :
    Keeps (SteadfastSession sinks) (findReg argv regs : HandlerM σ (Option U64)) := by
  induction regs with
  | nil => exact .pure none
  | cons reg regs ih => exact .bind (keeps_fetch _) fun _ => .ite (.pure _) ih

theorem keeps_printRegs (count i : Nat) (regs : List (CString × U64)) :
    Keeps (SteadfastSession sinks) (printRegs count i regs : HandlerM σ Unit) := by
  induction regs generalizing i with
  | nil => exact .pure ()
  | cons reg regs ih =>
    refine .bind (keeps_say _ _) fun _ => ?_
    exact .ite (.bind (keeps_say _ _) fun _ => ih _) (ih _)

theorem keeps_reg (info : IntInfo) (argc : Nat) (argv : Argv) :
    Keeps (SteadfastSession sinks) (dbgDoReg info argc argv : HandlerM σ Code) := by
  refine .ite (.bind (keeps_printRegs _ _ _) fun _ => .pure _) (.ite ?_ (.pure _))
  refine .bind (keeps_findReg _ _) fun found => ?_
  cases found with
  | some value => exact .bind (keeps_say _ _) fun _ => .pure _
  | none => exact .bind (keeps_fetch _) fun _ => .bind (keeps_say _ _) fun _ => .pure _

theorem keeps_breakReg (argv : Argv) :
    Keeps (SteadfastSession sinks) (breakReg argv : HandlerM σ (Option BreakReg)) :=
  .bind (keeps_fetch _) fun _ => .ite (.pure _) <|
    .bind (keeps_fetch _) fun _ => .ite (.pure _) <|
      .bind (keeps_fetch _) fun _ => .ite (.pure _) <|
        .bind (keeps_fetch _) fun _ => .ite (.pure _) (.pure _)

theorem keeps_breakAccess (argv : Argv) :
    Keeps (SteadfastSession sinks) (breakAccess argv : HandlerM σ (Option Access)) :=
  .bind (keeps_fetch _) fun _ => .ite (.pure _) <|
    .bind (keeps_fetch _) fun _ => .ite (.pure _) <|
      .bind (keeps_fetch _) fun _ => .ite (.pure _) (.pure _)

theorem keeps_hardwareBp (argc : Nat) (argv : Argv) :
    Keeps (SteadfastSession sinks) (dbgDoHardwareBp argc argv : HandlerM σ Code) := by
  refine .ite (.pure _) (.bind (keeps_fetch _) fun bp => .bind (keeps_breakReg _) fun reg => ?_)
  cases reg with
  | none => exact .bind (keeps_fetch _) fun _ => .bind (keeps_say _ _) fun _ => .pure _
  | some reg =>
    refine .bind (keeps_breakAccess _) fun access => ?_
    cases access with
    | none => exact .pure _
    | some access => exact .bind (.modify fun s h => h) fun _ => .pure _

theorem keeps_dumpLoop (mem : U64 → Byte) (n : Nat) (base : U64) (c : Nat) :
    Keeps (SteadfastSession sinks) (dumpLoop mem n base c : HandlerM σ Unit) := by
  induction n generalizing base c with
  | zero => exact .pure ()
  | succ n ih =>
    refine .bind (keeps_say _ _) fun _ => .ite (.bind (keeps_say _ _) fun _ => ?_) ?_
    · exact .ite (.bind (keeps_say _ _) fun _ => ih _ _) (ih _ _)
    · exact .ite (.bind (keeps_say _ _) fun _ => ih _ _) (ih _ _)

theorem keeps_argBase (info : IntInfo) (argv : Argv) :
    Keeps (SteadfastSession sinks) (argBase info argv : HandlerM σ U64) :=
  .bind (keeps_findReg _ _) fun _ => .ite (keeps_fetch _) (.pure _)

theorem keeps_dumphex (m : Machine) (argc : Nat) (argv : Argv) :
    Keeps (SteadfastSession sinks) (dbgDoDumphex m argc argv : HandlerM σ Code) := by
  refine .bind (keeps_argBase _ _) fun base => .ite (.pure _) ?_
  refine .bind (keeps_fetch _) fun size => .bind (keeps_say _ _) fun _ => ?_
  exact .bind (keeps_dumpLoop _ _ _ _) fun _ => .bind (keeps_say _ _) fun _ => .pure _

theorem keeps_disasmLoop (disasm : Disasm) (mem : U64 → Byte) (n : Nat) (base : U64) :
    Keeps (SteadfastSession sinks) (disasmLoop disasm mem n base : HandlerM σ Unit) := by
  induction n generalizing base with
  | zero => exact .pure ()
  | succ n ih =>
    unfold disasmLoop
    cases disasm mem base with
    | none => exact .throw _
    | some inst => exact .bind (keeps_say _ _) fun _ => ih _

theorem keeps_disassembly (disasm : Disasm) (m : Machine) (argc : Nat) (argv : Argv) :
    Keeps (SteadfastSession sinks) (dbgDoDisassembly disasm m argc argv : HandlerM σ Code) := by
  refine .ite (.pure _) (.bind (keeps_argBase _ _) fun base => .ite (.pure _) ?_)
  refine .bind (keeps_fetch _) fun count => .ite (.pure _) ?_
  exact .bind (keeps_disasmLoop _ _ _ _) fun _ => .pure _

theorem keeps_help (argc : Nat) (argv : Argv) :
    Keeps (SteadfastSession sinks) (dbgDoHelp argc argv : HandlerM σ Code) :=
  .bind (keeps_say _ _) fun _ => .bind (keeps_say _ _) fun _ => .bind (keeps_say _ _) fun _ =>
    .bind (keeps_say _ _) fun _ => .bind (keeps_say _ _) fun _ => .bind (keeps_say _ _) fun _ =>
      .bind (keeps_say _ _) fun _ => .pure _

theorem keeps_execTable {table : List (CString × Handler σ)} (argc : Nat) (argv : Argv)
    (h : ∀ entry ∈ table, ∀ argc argv, Keeps (SteadfastSession sinks) (entry.2 argc argv)) :
    Keeps (SteadfastSession sinks) (execTable argc argv table) := by
  induction table with
  | nil => exact .pure _
  | cons entry table ih =>
    refine .bind (keeps_fetch _) fun _ => .ite (h entry List.mem_cons_self _ _) ?_
    exact ih fun other hother => h other (List.mem_cons_of_mem _ hother)

theorem keeps_exec (disasm : Disasm) (m : Machine) (argc : Nat) (argv : Argv) :
    Keeps (SteadfastSession sinks) (dbgExec disasm m argc argv : HandlerM σ Code) := by
  refine .ite (.pure _) (keeps_execTable _ _ ?_)
  simp only [cmdTable, List.forall_mem_cons]
  exact ⟨fun _ _ => .pure _, fun _ _ => .pure _, keeps_reg _, keeps_hardwareBp, keeps_dumphex _,
    keeps_disassembly _ _, keeps_help, fun _ h => absurd h List.not_mem_nil⟩

end Commands

end MidnightOS.Debug
