import MidnightOS.Debug.Arguments

/-! # Commands on the same words

Whatever was typed before, a handler that is given the words it reads does the same:
same code, same output, same debug registers.
-/

namespace MidnightOS.Debug

open MidnightOS.Lib
open MidnightOS.Arch (U64 IntInfo)

variable {σ : Type}

/-- Sessions that differ in the buffers of `dbgio.c` only. -/
structure AlikeSession (s t : Session σ) : Prop where
  io : Alike s.io t.io
  drs : s.drs = t.drs

/-- A message that takes arguments for `ds` and prints no decimal number. -/
def Sayable (fmt : String) (ds : List Directive) : Prop :=
  directives (pieces (.literal fmt)) = ds ∧ ds.all Directive.plain = true ∧
    literals (pieces (.literal fmt)) < 2 ^ 32

instance (fmt : String) (ds : List Directive) : Decidable (Sayable fmt ds) := by
  unfold Sayable
  infer_instance

theorem agree_say {fmt : String} {ds : List Directive} {args : List Arg} (h : Sayable fmt ds)
    (hmatch : Matching ds args) (hweights : weights args < 2 ^ 32) :
    Agree AlikeSession (dbgSay fmt args : HandlerM σ Unit) (dbgSay fmt args) := by
  obtain ⟨hds, hplain, hliterals⟩ := h
  subst hds
  intro s t hst
  have hsent := dbgMsg_plain (σ := σ) hplain hmatch (by omega) s.io t.io hst.io
  unfold dbgSay
  cases hs : dbgMsg (.literal fmt) args s.io with
  | ok n io =>
    cases ht : dbgMsg (.literal fmt) args t.io with
    | ok n' io' =>
      rw [hs, ht] at hsent
      cases hsent with
      | ok _ halike => exact .ok () ⟨halike, hst.drs⟩
    | error e io' => rw [hs, ht] at hsent; cases hsent
  | error e io =>
    cases ht : dbgMsg (.literal fmt) args t.io with
    | ok n' io' => rw [hs, ht] at hsent; cases hsent
    | error e' io' =>
      rw [hs, ht] at hsent
      cases hsent with
      | error => exact .error e _ _

/-- A message with one number. -/
theorem long_fits (word : BitVec 64) : weights [.long word] < 2 ^ 32 := by
  simp [weights, Arg.weight]

theorem int_fits (word : BitVec 32) : weights [.int word] < 2 ^ 32 := by
  simp [weights, Arg.weight]

theorem directives_plain {fmt : List Byte} (h : chr '%' ∉ fmt) :
    directives (piecesFrom 0 fmt) = [] := by
  induction fmt with
  | nil => rfl
  | cons c fmt ih =>
    rw [List.mem_cons, not_or] at h
    rw [piecesFrom, if_pos (Ne.symm h.1), directives, ih h.2]

theorem literals_plain {fmt : List Byte} (h : chr '%' ∉ fmt) :
    literals (piecesFrom 0 fmt) = fmt.length := by
  induction fmt with
  | nil => rfl
  | cons c fmt ih =>
    rw [List.mem_cons, not_or] at h
    rw [piecesFrom, if_pos (Ne.symm h.1), literals, ih h.2, List.length_cons, Nat.add_comm]

/-- A text without a percent sign takes no arguments, however long it is. -/
theorem sayable_plain {text : List Char} (hplain : chr '%' ∉ text.map chr)
    (hlength : text.length < 2 ^ 32) : Sayable (String.ofList text) [] := by
  have hfront := textOf_isPrefixOf (text.map chr)
  have hchars : (CString.literal (String.ofList text)).chars = textOf (text.map chr) := by
    rw [CString.literal, String.toList_ofList]
    rfl
  have hprinted : chr '%' ∉ textOf (text.map chr) := fun hmem => hplain (hfront.subset hmem)
  have hle := hfront.length_le
  rw [List.length_map] at hle
  unfold Sayable
  rw [pieces, hchars, directives_plain hprinted, literals_plain hprinted]
  exact ⟨rfl, rfl, by omega⟩

theorem agree_say_nil {fmt : String} (h : Sayable fmt []) :
    Agree AlikeSession (dbgSay fmt [] : HandlerM σ Unit) (dbgSay fmt []) :=
  agree_say h trivial (by decide)

/-! ## Registers and addresses -/

/-- The value of the register that the word names. -/
def regOf (word : List Byte) (regs : List (CString × U64)) : Option U64 :=
  (regs.find? fun reg => word = reg.1.chars).map Prod.snd

theorem findReg_eq {argv : Argv} {ws : List (List Byte)} (h : Reads argv ws) {word : List Byte}
    (hword : ws[0]? = some word) (regs : List (CString × U64)) :
    (findReg argv regs : HandlerM σ (Option U64)) = pure (regOf word regs) := by
  induction regs with
  | nil => rfl
  | cons reg regs ih =>
    obtain ⟨name, value⟩ := reg
    rw [findReg, argIs_eq h hword, pure_bind]
    by_cases hname : word = name.chars
    · simp [regOf, hname]
    · rw [ih]
      simp [regOf, hname]

/-- The address that a word stands for. -/
def addressOf (info : IntInfo) (word : List Byte) : U64 :=
  if (regOf word (regsArray info)).getD 0 = 0 then numberOf word
  else (regOf word (regsArray info)).getD 0

theorem argBase_eq {argv : Argv} {ws : List (List Byte)} (h : Reads argv ws) {word : List Byte}
    (hword : ws[0]? = some word) (info : IntInfo) :
    (argBase info argv : HandlerM σ U64) = pure (addressOf info word) := by
  rw [argBase, findReg_eq h hword, pure_bind]
  by_cases hzero : (regOf word (regsArray info)).getD 0 = 0
  · simp only [hzero, if_true, argAtol_eq h hword, addressOf]
  · simp only [hzero, if_false, addressOf]

/-! ## The loops -/

theorem agree_printRegs (count i : Nat) {regs : List (CString × U64)}
    (hshort : ∀ reg ∈ regs, reg.1.chars.length < 16) :
    Agree AlikeSession (printRegs count i regs : HandlerM σ Unit) (printRegs count i regs) := by
  induction regs generalizing i with
  | nil => exact agree_pure ()
  | cons reg regs ih =>
    obtain ⟨name, value⟩ := reg
    have hname : name.chars.length < 16 := hshort _ List.mem_cons_self
    have hrest := ih (i + 1) fun other hother => hshort other (List.mem_cons_of_mem _ hother)
    have hsay : Sayable "%s: 0x%lx " [.s, .lx] := by decide
    unfold printRegs
    refine agree_bind (agree_say hsay ⟨rfl, rfl, trivial⟩ ?_) fun _ => ?_
    · simp only [weights, Arg.weight]
      omega
    · exact agree_ite (fun _ => agree_bind (agree_say_nil (by decide)) fun _ => hrest)
        fun _ => hrest

theorem agree_dumpLoop (mem : U64 → Byte) (n : Nat) (base : U64) (c : Nat) :
    Agree AlikeSession (dumpLoop mem n base c : HandlerM σ Unit) (dumpLoop mem n base c) := by
  induction n generalizing base c with
  | zero => exact agree_pure ()
  | succ n ih =>
    unfold dumpLoop
    have hbyte : Sayable "0x%b " [.b] := by decide
    have haddress : Sayable "\n0x%lx: " [.lx] := by decide
    refine agree_bind (agree_say hbyte ⟨rfl, trivial⟩ (int_fits _)) fun _ => ?_
    have hnext : Agree AlikeSession
        (if c + 1 = 16 ∧ 0 < n then do
            dbgSay "\n0x%lx: " [.long (base + 1)]
            dumpLoop mem n (base + 1) 0
          else dumpLoop mem n (base + 1) (c + 1) : HandlerM σ Unit)
        (if c + 1 = 16 ∧ 0 < n then do
            dbgSay "\n0x%lx: " [.long (base + 1)]
            dumpLoop mem n (base + 1) 0
          else dumpLoop mem n (base + 1) (c + 1)) :=
      agree_ite (fun _ => agree_bind (agree_say haddress ⟨rfl, trivial⟩ (long_fits _)) fun _ => ih _ _)
        fun _ => ih _ _
    exact agree_ite (fun _ => agree_bind (agree_say_nil (by decide)) fun _ => hnext) fun _ => hnext

theorem agree_disasmLoop (disasm : Disasm) (mem : U64 → Byte) (n : Nat) (base : U64) :
    Agree AlikeSession (disasmLoop disasm mem n base : HandlerM σ Unit)
      (disasmLoop disasm mem n base) := by
  induction n generalizing base with
  | zero => exact agree_pure ()
  | succ n ih =>
    unfold disasmLoop
    cases disasm mem base with
    | none => exact agree_throw Fault.store
    | some inst =>
      have hsay : Sayable "0x%lx: %s\n" [.lx, .s] := by decide
      have hfits := inst.fits
      refine agree_bind (agree_say hsay ⟨rfl, rfl, trivial⟩ ?_) fun _ => ih _
      simp only [weights, Arg.weight]
      omega

/-! ## The handlers -/

/-- The words are as short as those of a command line. -/
def Short (ws : List (List Byte)) : Prop := ∀ word ∈ ws, word.length < 256

theorem regsArray_short (info : IntInfo) : ∀ reg ∈ regsArray info, reg.1.chars.length < 16 := by
  simp only [regsArray, List.forall_mem_cons]
  decide

theorem agree_reg (info : IntInfo) {argv₁ argv₂ : Argv} {ws : List (List Byte)}
    (h₁ : Reads argv₁ ws) (h₂ : Reads argv₂ ws) (hshort : Short ws) :
    Agree AlikeSession (dbgDoReg info ws.length argv₁ : HandlerM σ Code)
      (dbgDoReg info ws.length argv₂) := by
  unfold dbgDoReg
  refine agree_ite (fun _ => agree_bind (agree_printRegs _ _ (regsArray_short info)) fun _ =>
    agree_pure _) fun _ => agree_ite (fun hone => ?_) fun _ => agree_pure _
  cases ws with
  | nil => cases hone
  | cons word ws =>
    rw [findReg_eq h₁ rfl, findReg_eq h₂ rfl, pure_bind, pure_bind]
    cases regOf word (regsArray info) with
    | some value =>
      have hsay : Sayable "0x%lx\n" [.lx] := by decide
      exact agree_bind (agree_say hsay ⟨rfl, trivial⟩ (long_fits _)) fun _ => agree_pure _
    | none =>
      have hzero : (word :: ws)[0]? = some word := rfl
      -- the message quotes the word, which both lines have
      obtain ⟨hword, hstring₁⟩ := argString_eq (σ := σ) h₁ hzero
      obtain ⟨_, hstring₂⟩ := argString_eq (σ := σ) h₂ hzero
      have hlength := hshort word List.mem_cons_self
      have hsay : Sayable "Unknown register %s\n" [.s] := by decide
      simp only [hstring₁, hstring₂, pure_bind]
      refine agree_bind (agree_say hsay ⟨rfl, trivial⟩ ?_) fun _ => agree_pure _
      simp only [weights, Arg.weight]
      omega

theorem agree_break_end (reg : BreakReg) (access : Access) (bp : U64) :
    Agree AlikeSession
      (do
        modify fun s => { s with drs := s.drs.setBreak reg access bp }
        pure Code.success : HandlerM σ Code)
      (do
        modify fun s => { s with drs := s.drs.setBreak reg access bp }
        pure Code.success) :=
  agree_bind (agree_modify fun _ _ h => ⟨h.io, by rw [h.drs]⟩) fun _ => agree_pure _

/-- The register that the second argument of `hbp` names. -/
def breakRegOf (word : List Byte) : Option BreakReg :=
  if word = (CString.literal "dr0").chars then some .dr0
  else if word = (CString.literal "dr1").chars then some .dr1
  else if word = (CString.literal "dr2").chars then some .dr2
  else if word = (CString.literal "dr3").chars then some .dr3
  else none

theorem breakReg_eq {argv : Argv} {ws : List (List Byte)} (h : Reads argv ws) {word : List Byte}
    (hword : ws[1]? = some word) :
    (breakReg argv : HandlerM σ (Option BreakReg)) = pure (breakRegOf word) := by
  simp only [breakReg, argIs_eq h hword, pure_bind, decide_eq_true_eq, breakRegOf]
  split_ifs <;> rfl

def breakAccessOf (word : List Byte) : Option Access :=
  if word = (CString.literal "0").chars then some .none
  else if word = (CString.literal "ex").chars then some .ex
  else if word = (CString.literal "ma").chars then some .ma
  else none

theorem breakAccess_eq {argv : Argv} {ws : List (List Byte)} (h : Reads argv ws)
    {word : List Byte} (hword : ws[2]? = some word) :
    (breakAccess argv : HandlerM σ (Option Access)) = pure (breakAccessOf word) := by
  simp only [breakAccess, argIs_eq h hword, pure_bind, decide_eq_true_eq, breakAccessOf]
  split_ifs <;> rfl

theorem agree_hardwareBp {argv₁ argv₂ : Argv} {ws : List (List Byte)} (h₁ : Reads argv₁ ws)
    (h₂ : Reads argv₂ ws) (hshort : Short ws) :
    Agree AlikeSession (dbgDoHardwareBp ws.length argv₁ : HandlerM σ Code)
      (dbgDoHardwareBp ws.length argv₂) := by
  unfold dbgDoHardwareBp
  refine agree_ite (fun _ => agree_pure _) fun hthree => ?_
  have hlength : ws.length = 3 := by omega
  obtain ⟨address, name, kind, rfl⟩ := List.length_eq_three.mp hlength
  have hfirst : [address, name, kind][0]? = some address := rfl
  have hsecond : [address, name, kind][1]? = some name := rfl
  have hthird : [address, name, kind][2]? = some kind := rfl
  rw [argAtol_eq h₁ hfirst, argAtol_eq h₂ hfirst, breakReg_eq h₁ hsecond, breakReg_eq h₂ hsecond]
  simp only [pure_bind]
  cases breakRegOf name with
  | none =>
    -- as for an unknown register of `reg`
    obtain ⟨hword, hstring₁⟩ := argString_eq (σ := σ) h₁ hsecond
    obtain ⟨_, hstring₂⟩ := argString_eq (σ := σ) h₂ hsecond
    have hname := hshort name (by simp)
    have hsay : Sayable "Invalid register %s\n" [.s] := by decide
    simp only [hstring₁, hstring₂, pure_bind]
    refine agree_bind (agree_say hsay ⟨rfl, trivial⟩ ?_) fun _ => agree_pure _
    simp only [weights, Arg.weight]
    omega
  | some reg =>
    simp only [breakAccess_eq h₁ hthird, breakAccess_eq h₂ hthird, pure_bind]
    cases breakAccessOf kind with
    | none => exact agree_pure _
    | some access => exact agree_break_end reg access _

theorem agree_dump (m : Machine) (base size : U64) :
    Agree AlikeSession
      (do
        dbgSay "0x%lx: " [.long base]
        dumpLoop m.mem ((base + size).toNat - base.toNat) base 0
        dbgSay "\n" []
        pure Code.success : HandlerM σ Code)
      (do
        dbgSay "0x%lx: " [.long base]
        dumpLoop m.mem ((base + size).toNat - base.toNat) base 0
        dbgSay "\n" []
        pure Code.success) := by
  have hsay : Sayable "0x%lx: " [.lx] := by decide
  exact agree_bind (agree_say hsay ⟨rfl, trivial⟩ (long_fits _)) fun _ =>
    agree_bind (agree_dumpLoop _ _ _ _) fun _ =>
      agree_bind (agree_say_nil (by decide)) fun _ => agree_pure _

/-- `x` reads its first argument, and its second one if the first is an address. -/
def DumpReads (info : IntInfo) (ws : List (List Byte)) : Prop :=
  ∃ address rest, ws = address :: rest ∧ (addressOf info address = 0 ∨ rest ≠ [])

theorem agree_dumphex (m : Machine) {argv₁ argv₂ : Argv} {ws : List (List Byte)}
    (h₁ : Reads argv₁ ws) (h₂ : Reads argv₂ ws) (h : DumpReads m.info ws) :
    Agree AlikeSession (dbgDoDumphex m ws.length argv₁ : HandlerM σ Code)
      (dbgDoDumphex m ws.length argv₂) := by
  obtain ⟨address, rest, rfl, hreads⟩ := h
  have hfirst : (address :: rest)[0]? = some address := rfl
  unfold dbgDoDumphex
  rw [argBase_eq h₁ hfirst, argBase_eq h₂ hfirst, pure_bind, pure_bind]
  refine agree_ite (fun _ => agree_pure _) fun hbase => ?_
  cases rest with
  | nil => exact absurd rfl (hreads.resolve_left hbase)
  | cons size rest =>
    have hsecond : (address :: size :: rest)[1]? = some size := rfl
    rw [argAtol_eq h₁ hsecond, argAtol_eq h₂ hsecond, pure_bind]
    exact agree_dump m _ _

theorem agree_disassembly (disasm : Disasm) (m : Machine) {argv₁ argv₂ : Argv}
    {ws : List (List Byte)} (h₁ : Reads argv₁ ws) (h₂ : Reads argv₂ ws) :
    Agree AlikeSession (dbgDoDisassembly disasm m ws.length argv₁ : HandlerM σ Code)
      (dbgDoDisassembly disasm m ws.length argv₂) := by
  unfold dbgDoDisassembly
  refine agree_ite (fun _ => agree_pure _) fun htwo => ?_
  have hlength : ws.length = 2 := by omega
  obtain ⟨address, count, rfl⟩ := List.length_eq_two.mp hlength
  have hfirst : [address, count][0]? = some address := rfl
  have hsecond : [address, count][1]? = some count := rfl
  rw [argBase_eq h₁ hfirst, argBase_eq h₂ hfirst, pure_bind, pure_bind]
  refine agree_ite (fun _ => agree_pure _) fun _ => ?_
  rw [argAtol_eq h₁ hsecond, argAtol_eq h₂ hsecond, pure_bind]
  exact agree_ite (fun _ => agree_pure _) fun _ =>
    agree_bind (agree_disasmLoop disasm _ _ _) fun _ => agree_pure _

theorem agree_help (argc₁ argc₂ : Nat) (argv₁ argv₂ : Argv) :
    Agree AlikeSession (dbgDoHelp argc₁ argv₁ : HandlerM σ Code) (dbgDoHelp argc₂ argv₂) :=
  agree_bind (agree_say_nil (sayable_plain (by decide) (by decide))) fun _ =>
    agree_bind (agree_say_nil (sayable_plain (by decide) (by decide))) fun _ =>
      agree_bind (agree_say_nil (sayable_plain (by decide) (by decide))) fun _ =>
        agree_bind (agree_say_nil (sayable_plain (by decide) (by decide))) fun _ =>
          agree_bind (agree_say_nil (sayable_plain (by decide) (by decide))) fun _ =>
            agree_bind (agree_say_nil (sayable_plain (by decide) (by decide))) fun _ =>
              agree_bind (agree_say_nil (sayable_plain (by decide) (by decide))) fun _ => agree_pure _

/-! ## Execution -/

/-- The line is an `x` that does not read an argument it was not given. -/
def ReadsOwn (info : IntInfo) (ws : List (List Byte)) : Prop :=
  ∀ args, ws = (CString.literal "x").chars :: args → DumpReads info args

theorem execTable_cons {argv : Argv} {ws : List (List Byte)} (h : Reads argv ws)
    {word : List Byte} (hword : ws[0]? = some word) (argc : Nat) (name : CString)
    (handler : Handler σ) (table : List (CString × Handler σ)) :
    execTable argc argv ((name, handler) :: table) =
      if word = name.chars then handler (argc - 1) (fun i => argv (i + 1))
      else execTable argc argv table := by
  rw [execTable, argIs_eq h hword, pure_bind]
  simp only [decide_eq_true_eq]

theorem agree_exec (disasm : Disasm) (m : Machine) {argv₁ argv₂ : Argv} {ws : List (List Byte)}
    (h₁ : Reads argv₁ ws) (h₂ : Reads argv₂ ws) (hshort : Short ws) (hown : ReadsOwn m.info ws) :
    Agree AlikeSession (dbgExec disasm m ws.length argv₁ : HandlerM σ Code)
      (dbgExec disasm m ws.length argv₂) := by
  unfold dbgExec
  refine agree_ite (fun _ => agree_pure _) fun hpos => ?_
  cases ws with
  | nil => exact absurd rfl hpos
  | cons word args =>
    have hfirst : (word :: args)[0]? = some word := rfl
    have hargs : Short args := fun other hother => hshort other (List.mem_cons_of_mem _ hother)
    have hlength : (word :: args).length - 1 = args.length := rfl
    simp only [cmdTable, execTable_cons h₁ hfirst, execTable_cons h₂ hfirst, hlength]
    refine agree_ite (fun _ => agree_pure _) fun _ => ?_
    refine agree_ite (fun _ => agree_pure _) fun _ => ?_
    refine agree_ite (fun _ => agree_reg m.info h₁.tail h₂.tail hargs) fun _ => ?_
    refine agree_ite (fun _ => agree_hardwareBp h₁.tail h₂.tail hargs) fun _ => ?_
    refine agree_ite (fun hx => ?_) fun _ => ?_
    · subst hx
      exact agree_dumphex m h₁.tail h₂.tail (hown args rfl)
    refine agree_ite (fun _ => agree_disassembly disasm m h₁.tail h₂.tail) fun _ => ?_
    exact agree_ite (fun _ => agree_help _ _ _ _) fun _ => agree_pure _

end MidnightOS.Debug
