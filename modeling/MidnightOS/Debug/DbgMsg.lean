import MidnightOS.Debug.Conversions

/-! # What `dbg_msg` sends

`pieces` reads a format from left to right: characters, directives, and a rest that
goes out verbatim.  `expansion` is the text that the format stands for with given
arguments.  `dbg_msg` sends exactly that, unless it prints an unsigned number of one
digit.
-/

namespace MidnightOS.Debug

open MidnightOS.Lib

/-! ## Formats -/

/-- The directives.  `%i` and `%li` are other spellings of `d` and `ld`. -/
inductive Directive where
  | c
  | s
  | d
  | ld
  | u
  | lu
  | b
  | x
  | lx
deriving DecidableEq

def Directive.short (letter : Byte) : Option Directive :=
  if letter = chr 'c' then some .c
  else if letter = chr 's' then some .s
  else if letter = chr 'd' ∨ letter = chr 'i' then some .d
  else if letter = chr 'u' then some .u
  else if letter = chr 'b' then some .b
  else if letter = chr 'x' then some .x
  else none

def Directive.long (letter : Byte) : Option Directive :=
  if letter = chr 'd' ∨ letter = chr 'i' then some .ld
  else if letter = chr 'u' then some .lu
  else if letter = chr 'x' then some .lx
  else none

/-- The directive that the characters after a percent sign spell, and its width. -/
def Directive.leading : List Byte → Option (Directive × Nat)
  | [] => none
  | letter :: fmt =>
    if letter = chr 'l' then
      (fmt.head?.bind Directive.long).map fun directive => (directive, 2)
    else
      (Directive.short letter).map fun directive => (directive, 1)

inductive Piece where
  | char (c : Byte)
  | directive (directive : Directive)
  | verbatim (rest : List Byte)

/-- The pieces of what follows the first `skip` characters. -/
def piecesFrom : (skip : Nat) → List Byte → List Piece
  | _, [] => []
  | skip + 1, _ :: fmt => piecesFrom skip fmt
  | 0, c :: fmt =>
    if c ≠ chr '%' then
      .char c :: piecesFrom 0 fmt
    else if fmt.head? = some (chr '%') then
      .char c :: piecesFrom 1 fmt
    else
      match Directive.leading fmt with
      | some (directive, width) => .directive directive :: piecesFrom width fmt
      | none => [.verbatim (c :: fmt)]

def pieces (fmt : CString) : List Piece := piecesFrom 0 fmt.chars

/-- The directives of a format that are expanded, in order. -/
def directives : List Piece → List Directive
  | [] => []
  | .directive directive :: rest => directive :: directives rest
  | .char _ :: rest => directives rest
  | .verbatim _ :: rest => directives rest

/-! ## Arguments -/

/-- An argument has the type that the directive asks for. -/
def Directive.takes : Directive → Arg → Bool
  | .c, .int _ => true
  | .s, .string _ => true
  | .d, .int _ => true
  | .ld, .long _ => true
  | .u, .int _ => true
  | .lu, .long _ => true
  | .b, .int _ => true
  | .x, .int _ => true
  | .lx, .long _ => true
  | _, _ => false

/-- There is an argument of the right type for every directive.  Further ones do no harm. -/
def Matching : List Directive → List Arg → Prop
  | [], _ => True
  | directive :: rest, arg :: args => directive.takes arg = true ∧ Matching rest args
  | _ :: _, [] => False

/-- The string a routine returns, and the buffers it leaves. -/
def returned (routine : BuffM Chars) (buffs : StrBuffs) : Option (List Byte × StrBuffs) :=
  match routine buffs with
  | .ok str buffs' => if 0 ∈ str then some (textOf str, buffs') else none
  | .error _ _ => none

/-- The text a directive stands for. -/
def Directive.text : Directive → Arg → StrBuffs → Option (List Byte × StrBuffs)
  | .c, .int num, buffs => some ([num.setWidth 8], buffs)
  | .s, .string str, buffs => some (str.chars, buffs)
  | .d, .int num, buffs => returned (s64ToStr (num.signExtend 64)) buffs
  | .ld, .long num, buffs => returned (s64ToStr num) buffs
  | .u, .int num, buffs => returned (u64ToStr (num.setWidth 64)) buffs
  | .lu, .long num, buffs => returned (u64ToStr num) buffs
  | .b, .int num, buffs => returned (u8ToHstr (num.setWidth 8)) buffs
  | .x, .int num, buffs => returned (u32ToHstr num) buffs
  | .lx, .long num, buffs => returned (u64ToHstr num) buffs
  | _, _, _ => none

def prepend (text : List Byte) (rest : List Byte × StrBuffs) : List Byte × StrBuffs :=
  (text ++ rest.1, rest.2)

/-- The text of the pieces, and the buffers afterwards. -/
def render : List Piece → List Arg → StrBuffs → Option (List Byte × StrBuffs)
  | [], _, buffs => some ([], buffs)
  | .char c :: rest, args, buffs => (render rest args buffs).map (prepend [c])
  | .verbatim chars :: rest, args, buffs => (render rest args buffs).map (prepend chars)
  | .directive directive :: rest, arg :: args, buffs =>
    (directive.text arg buffs).bind fun found =>
      (render rest args found.2).map (prepend found.1)
  | .directive _ :: _, [], _ => none

/-- The left-to-right expansion of a format, where every routine returns a string. -/
def expansion (fmt : CString) (args : List Arg) (buffs : StrBuffs) : Option (List Byte) :=
  (render (pieces fmt) args buffs).map Prod.fst

/-- An unsigned number of one digit. -/
def Directive.OneDigit : Directive → Arg → Prop
  | .u, .int num => num.toNat < 10
  | .lu, .long num => num.toNat < 10
  | _, _ => False

/-- The expansion prints no unsigned number of one digit. -/
def NoOneDigit : List Directive → List Arg → Prop
  | directive :: rest, arg :: args => ¬directive.OneDigit arg ∧ NoOneDigit rest args
  | _, _ => True

/-! ## When there is an expansion -/

theorem returned_of_returns {routine : BuffM Chars} {buffs : StrBuffs}
    (h : Returns routine buffs) : ∃ text buffs', returned routine buffs = some (text, buffs') := by
  obtain ⟨str, buffs', hrun, hnul⟩ := h
  exact ⟨_, _, by simp only [returned, hrun, if_pos hnul]; rfl⟩

theorem returned_of_error {routine : BuffM Chars} {buffs buffs' : StrBuffs} {e : Fault}
    (h : routine buffs = .error e buffs') : returned routine buffs = none := by
  rw [returned, h]

theorem toNat_setWidth_int (num : BitVec 32) : (num.setWidth 64).toNat = num.toNat := by
  have := num.isLt
  rw [BitVec.toNat_setWidth]
  omega

theorem Directive.text_isSome {directive : Directive} {arg : Arg}
    (htakes : directive.takes arg = true) (h : ¬directive.OneDigit arg) (buffs : StrBuffs) :
    ∃ text buffs', directive.text arg buffs = some (text, buffs') := by
  cases directive <;> cases arg <;> try cases htakes
  case c.int num => exact ⟨_, _, rfl⟩
  case s.string str => exact ⟨_, _, rfl⟩
  case d.int num => exact returned_of_returns (s64ToStr_returns _ buffs)
  case ld.long num => exact returned_of_returns (s64ToStr_returns _ buffs)
  case u.int num =>
    apply returned_of_returns (u64ToStr_returns _ buffs)
    rw [toNat_setWidth_int]
    exact Nat.le_of_not_lt h
  case lu.long num => exact returned_of_returns (u64ToStr_returns (Nat.le_of_not_lt h) buffs)
  case b.int num => exact returned_of_returns (u8ToHstr_returns _ buffs)
  case x.int num => exact returned_of_returns (u32ToHstr_returns _ buffs)
  case lx.long num => exact returned_of_returns (u64ToHstr_returns _ buffs)

theorem Directive.text_oneDigit {directive : Directive} {arg : Arg}
    (h : directive.OneDigit arg) (buffs : StrBuffs) : directive.text arg buffs = none := by
  cases directive <;> cases arg <;> try exact absurd h id
  case u.int num =>
    apply returned_of_error (u64ToStr_digit _ buffs)
    rw [toNat_setWidth_int]
    exact h
  case lu.long num => exact returned_of_error (u64ToStr_digit h buffs)

theorem render_isSome_iff {parts : List Piece} {args : List Arg} (buffs : StrBuffs)
    (hmatch : Matching (directives parts) args) :
    (render parts args buffs).isSome = true ↔ NoOneDigit (directives parts) args := by
  induction parts generalizing args buffs with
  | nil => simp [render, directives, NoOneDigit]
  | cons piece rest ih =>
    cases piece with
    | char c =>
      rw [directives, ← ih buffs hmatch]
      simp [render]
    | verbatim chars =>
      rw [directives, ← ih buffs hmatch]
      simp [render]
    | directive directive =>
      cases args with
      | nil => exact absurd hmatch id
      | cons arg args =>
        obtain ⟨htakes, hrest⟩ := hmatch
        simp only [directives, NoOneDigit]
        -- the one directive without a text, and the rest with the buffers it leaves
        by_cases hdigit : directive.OneDigit arg
        · simp [render, Directive.text_oneDigit hdigit, hdigit]
        · obtain ⟨text, buffs', htext⟩ := Directive.text_isSome htakes hdigit buffs
          rw [← ih buffs' hrest]
          simp [render, htext, hdigit]

/-! ## What a run sends -/

section Run

variable {σ : Type}

def DbgIo.send (s : DbgIo σ) (text : List Byte) : DbgIo σ :=
  { s with sent := s.sent ++ text.flatMap (sinkCalls s.sinks) }

@[simp] theorem DbgIo.send_sinks (s : DbgIo σ) (text : List Byte) :
    (s.send text).sinks = s.sinks := rfl

@[simp] theorem DbgIo.send_buffs (s : DbgIo σ) (text : List Byte) :
    (s.send text).buffs = s.buffs := rfl

@[simp] theorem DbgIo.send_nil (s : DbgIo σ) : s.send [] = s := by
  simp [send]

theorem DbgIo.send_send (s : DbgIo σ) (text text' : List Byte) :
    (s.send text).send text' = s.send (text ++ text') := by
  simp [send, List.append_assoc]

theorem dbgStrlen_eq {str : Chars} (h : 0 ∈ str) (s : DbgIo σ) :
    dbgStrlen str s = .ok (textOf str).length s := by
  induction str with
  | nil => cases h
  | cons c str ih =>
    rw [dbgStrlen]
    by_cases hnul : c = 0
    · rw [hnul]
      rfl
    · have hrest : 0 ∈ str := by
        cases h with
        | head => exact absurd rfl hnul
        | tail _ hmem => exact hmem
      rw [if_pos hnul, map_eq_pure_bind, bind_of_ok (ih hrest),
        textOf_cons hnul]
      rfl

theorem dbgInternalPrintStr_eq {str : Chars} {len : Nat} (h : len ≤ str.length) (s : DbgIo σ) :
    dbgInternalPrintStr str len s = .ok () (s.send (str.take len)) := by
  induction len generalizing str s with
  | zero => simp [dbgInternalPrintStr]; rfl
  | succ len ih =>
    cases str with
    | nil => simp at h
    | cons c str =>
      have hchr : dbgSinkchr c s = .ok () (s.send [c]) := by
        simp [dbgSinkchr, DbgIo.send]
        rfl
      rw [dbgInternalPrintStr, bind_of_ok hchr, ih (by simpa using h), DbgIo.send_send]
      rfl

theorem printAmount_eq {str fmt : Chars} {amount written : Nat} {params : List Arg}
    (hlen : amount ≤ str.length) (hfits : written + amount < 2 ^ 64) (s : DbgIo σ) :
    printAmount str amount fmt params written s =
      .ok (.next fmt params (written + amount)) (s.send (str.take amount)) := by
  rw [printAmount, if_neg (by unfold sizeMax; omega), bind_of_ok (dbgInternalPrintStr_eq hlen s)]
  rfl

theorem printString_eq {str : Chars} {written : Nat} (hnul : 0 ∈ str)
    (hfits : written + (textOf str).length < 2 ^ 64) (fmt : Chars) (params : List Arg)
    (s : DbgIo σ) :
    printString str fmt params written s =
      .ok (.next fmt params (written + (textOf str).length))
        (s.send (textOf str)) := by
  rw [printString, bind_of_ok (dbgStrlen_eq hnul s),
    printAmount_eq (textOf_isPrefixOf str).length_le hfits,
    ← List.prefix_iff_eq_take.mp (textOf_isPrefixOf str)]

/-- What the chain of `dbg_internal_print` does for a directive. -/
def Directive.branch (directive : Directive) (fmt : Chars) (params : List Arg) (written : Nat) :
    DbgM σ Round :=
  match directive with
  | .c => do
    let (num, params) ← vaArgInt params
    printAmount [num.setWidth 8] 1 fmt params written
  | .s => do
    let (str, params) ← vaArgString params
    printString str.object fmt params written
  | .d => do
    let (num, params) ← vaArgInt params
    let str ← onBuffs (s64ToStr (num.signExtend 64))
    printString str fmt params written
  | .ld => do
    let (num, params) ← vaArgLong params
    let str ← onBuffs (s64ToStr num)
    printString str fmt params written
  | .u => do
    let (num, params) ← vaArgInt params
    let str ← onBuffs (u64ToStr (num.setWidth 64))
    printString str fmt params written
  | .lu => do
    let (num, params) ← vaArgLong params
    let str ← onBuffs (u64ToStr num)
    printString str fmt params written
  | .b => do
    let (num, params) ← vaArgInt params
    let str ← onBuffs (u8ToHstr (num.setWidth 8))
    printString str fmt params written
  | .x => do
    let (num, params) ← vaArgInt params
    let str ← onBuffs (u32ToHstr num)
    printString str fmt params written
  | .lx => do
    let (num, params) ← vaArgLong params
    let str ← onBuffs (u64ToHstr num)
    printString str fmt params written

theorem charAt_zero (c : Byte) (str : Chars) : (charAt (c :: str) 0 : DbgM σ Byte) = pure c := rfl

theorem charAt_one (c c' : Byte) (str : Chars) :
    (charAt (c :: c' :: str) 1 : DbgM σ Byte) = pure c' := rfl

/-- The chain tells the letters apart: each one has its own branch. -/
theorem directiveRound_short {letter : Byte} {directive : Directive}
    (h : Directive.short letter = some directive) (begun fmt : Chars) (params : List Arg)
    (written : Nat) :
    (directiveRound begun (letter :: fmt) params written : DbgM σ Round) =
      directive.branch fmt params written := by
  unfold Directive.short at h
  split at h
  · subst letter
    cases h
    rfl
  split at h
  · subst letter
    cases h
    rfl
  split at h
  · rename_i hletter
    cases h
    cases hletter with
    | inl hd => subst letter; rfl
    | inr hi => subst letter; rfl
  split at h
  · subst letter
    cases h
    rfl
  split at h
  · subst letter
    cases h
    rfl
  split at h
  · subst letter
    cases h
    rfl
  · cases h

theorem directiveRound_long {letter : Byte} {directive : Directive}
    (h : Directive.long letter = some directive) (begun fmt : Chars) (params : List Arg)
    (written : Nat) :
    (directiveRound begun (chr 'l' :: letter :: fmt) params written : DbgM σ Round) =
      directive.branch fmt params written := by
  unfold Directive.long at h
  split at h
  · rename_i hletter
    cases h
    cases hletter with
    | inl hd => subst letter; rfl
    | inr hi => subst letter; rfl
  split at h
  · subst letter
    cases h
    rfl
  split at h
  · subst letter
    cases h
    rfl
  · cases h

theorem directiveRound_leading {fmt : List Byte} {directive : Directive} {width : Nat}
    (h : Directive.leading fmt = some (directive, width)) (begun : Chars) (params : List Arg)
    (written : Nat) :
    (directiveRound begun (fmt ++ [0]) params written : DbgM σ Round) =
      directive.branch (fmt.drop width ++ [0]) params written := by
  cases fmt with
  | nil => cases h
  | cons letter fmt =>
    rw [Directive.leading] at h
    by_cases hl : letter = chr 'l'
    · rw [if_pos hl] at h
      cases fmt with
      | nil => cases h
      | cons letter' fmt =>
        obtain ⟨found, hfound, hpair⟩ := Option.map_eq_some_iff.mp h
        cases hpair
        simp only [hl, List.cons_append, List.drop_succ_cons, List.drop_zero]
        exact directiveRound_long hfound begun (fmt ++ [0]) params written
    · rw [if_neg hl] at h
      obtain ⟨found, hfound, hpair⟩ := Option.map_eq_some_iff.mp h
      cases hpair
      simp only [List.cons_append, List.drop_succ_cons, List.drop_zero]
      exact directiveRound_short hfound begun (fmt ++ [0]) params written

/-- The branch for everything else: the rest goes out as it is. -/
def verbatimBranch (begun : Chars) (params : List Arg) (written : Nat) : DbgM σ Round := do
  let amount ← dbgStrlen begun
  printAmount begun amount (begun.drop amount) params written

theorem directiveRound_noShort {letter : Byte} (hl : letter ≠ chr 'l')
    (h : Directive.short letter = none) (begun fmt : Chars) (params : List Arg) (written : Nat) :
    (directiveRound begun (letter :: fmt) params written : DbgM σ Round) =
      verbatimBranch begun params written := by
  have hlong : ∀ c, (atLong (letter :: fmt) c : DbgM σ Bool) = pure false := by
    intro c
    rw [atLong, charAt_zero, pure_bind, if_neg hl]
  unfold Directive.short at h
  split at h
  · cases h
  split at h
  · cases h
  split at h
  · cases h
  split at h
  · cases h
  split at h
  · cases h
  split at h
  · cases h
  rename_i hc hs hd hu hb hx
  -- the letter is none that the chain of comparisons knows
  simp only [directiveRound, charAt_zero, pure_bind, if_neg hc, if_neg hs, if_neg hd, if_neg hu,
    if_neg hb, if_neg hx, hlong, Bool.false_eq_true, if_false]
  rfl

theorem directiveRound_noLong {letter : Byte} (h : Directive.long letter = none)
    (begun fmt : Chars) (params : List Arg) (written : Nat) :
    (directiveRound begun (chr 'l' :: letter :: fmt) params written : DbgM σ Round) =
      verbatimBranch begun params written := by
  have hlong : ∀ c, (atLong (chr 'l' :: letter :: fmt) c : DbgM σ Bool) =
      pure (decide (letter = c)) := fun c => rfl
  unfold Directive.long at h
  split at h
  · cases h
  split at h
  · cases h
  split at h
  · cases h
  rename_i hd hu hx
  rw [not_or] at hd
  simp only [directiveRound, hlong, pure_bind, decide_eq_false hd.1, decide_eq_false hd.2,
    decide_eq_false hu, decide_eq_false hx, Bool.false_eq_true, if_false]
  rfl

theorem directiveRound_verbatim {fmt : List Byte} (h : Directive.leading fmt = none)
    (begun : Chars) (params : List Arg) (written : Nat) :
    (directiveRound begun (fmt ++ [0]) params written : DbgM σ Round) =
      verbatimBranch begun params written := by
  cases fmt with
  | nil =>
    simp only [List.nil_append]
    exact directiveRound_noShort (by decide) (by decide) begun [] params written
  | cons letter fmt =>
    rw [Directive.leading] at h
    by_cases hl : letter = chr 'l'
    · rw [if_pos hl, Option.map_eq_none_iff] at h
      rw [hl]
      cases fmt with
      | nil =>
        simp only [List.cons_append, List.nil_append]
        exact directiveRound_noLong (by decide) begun [] params written
      | cons letter' fmt =>
        simp only [List.cons_append]
        exact directiveRound_noLong h begun (fmt ++ [0]) params written
    · rw [if_neg hl, Option.map_eq_none_iff] at h
      simp only [List.cons_append]
      exact directiveRound_noShort hl h begun (fmt ++ [0]) params written

theorem onBuffs_eq {routine : BuffM Chars} {s : DbgIo σ} {text : List Byte} {buffs' : StrBuffs}
    (h : returned routine s.buffs = some (text, buffs')) :
    ∃ str, onBuffs routine s = .ok str { s with buffs := buffs' } ∧ 0 ∈ str ∧
      textOf str = text := by
  unfold returned at h
  cases hrun : routine s.buffs with
  | error e buffs => rw [hrun] at h; cases h
  | ok str buffs =>
    rw [hrun] at h
    simp only [Option.ite_none_right_eq_some, Option.some.injEq, Prod.mk.injEq] at h
    obtain ⟨hnul, htext, hbuffs⟩ := h
    refine ⟨str, ?_, hnul, htext⟩
    simp only [onBuffs, hrun, hbuffs]

theorem printRoutine_eq {routine : BuffM Chars} {s : DbgIo σ} {text : List Byte}
    {buffs' : StrBuffs} {written : Nat} (h : returned routine s.buffs = some (text, buffs'))
    (hfits : written + text.length < 2 ^ 64) (fmt : Chars) (params : List Arg) :
    (onBuffs routine >>= fun str => printString str fmt params written) s =
      .ok (.next fmt params (written + text.length)) ({ s with buffs := buffs' }.send text) := by
  obtain ⟨str, hrun, hnul, htext⟩ := onBuffs_eq h
  rw [← htext] at hfits ⊢
  rw [bind_of_ok hrun, printString_eq hnul hfits fmt params]

/-- A directive sends its text and consumes its argument. -/
theorem Directive.branch_eq {directive : Directive} {arg : Arg} {s : DbgIo σ} {text : List Byte}
    {buffs' : StrBuffs} {written : Nat} (h : directive.text arg s.buffs = some (text, buffs'))
    (hfits : written + text.length < 2 ^ 64) (fmt : Chars) (params : List Arg) :
    directive.branch fmt (arg :: params) written s =
      .ok (.next fmt params (written + text.length)) ({ s with buffs := buffs' }.send text) := by
  -- an argument of another type has no text
  cases directive <;> cases arg <;> try cases h
  case c.int num => exact printAmount_eq (by simp) hfits s
  case s.string str =>
    have htext : textOf str.object = str.chars := textOf_append_nul str.noNul
    have hnul : 0 ∈ str.object := List.mem_append_right _ List.mem_cons_self
    rw [← htext] at hfits ⊢
    exact printString_eq hnul hfits fmt params s
  case d.int num => exact printRoutine_eq h hfits fmt params
  case ld.long num => exact printRoutine_eq h hfits fmt params
  case u.int num => exact printRoutine_eq h hfits fmt params
  case lu.long num => exact printRoutine_eq h hfits fmt params
  case b.int num =>
    have hreturned : returned (u8ToHstr (num.setWidth 8)) s.buffs = some (text, buffs') := h
    exact printRoutine_eq hreturned hfits fmt params
  case x.int num =>
    have hreturned : returned (u32ToHstr num) s.buffs = some (text, buffs') := h
    exact printRoutine_eq hreturned hfits fmt params
  case lx.long num =>
    have hreturned : returned (u64ToHstr num) s.buffs = some (text, buffs') := h
    exact printRoutine_eq hreturned hfits fmt params

/-! ## Literal runs -/

/-- The characters before the next percent sign. -/
def literalRun (fmt : List Byte) : List Byte := fmt.takeWhile (· ≠ chr '%')

/-- The format from the next percent sign on. -/
def afterRun (fmt : List Byte) : List Byte := fmt.dropWhile (· ≠ chr '%')

theorem literalRun_cons {c : Byte} (h : c ≠ chr '%') (fmt : List Byte) :
    literalRun (c :: fmt) = c :: literalRun fmt :=
  List.takeWhile_cons_of_pos (by simpa using h)

theorem literalRun_percent (fmt : List Byte) : literalRun (chr '%' :: fmt) = [] :=
  List.takeWhile_cons_of_neg (by simp)

theorem afterRun_cons {c : Byte} (h : c ≠ chr '%') (fmt : List Byte) :
    afterRun (c :: fmt) = afterRun fmt :=
  List.dropWhile_cons_of_pos (by simpa using h)

theorem afterRun_percent (fmt : List Byte) : afterRun (chr '%' :: fmt) = chr '%' :: fmt :=
  List.dropWhile_cons_of_neg (by simp)

theorem literalRun_append_afterRun (fmt : List Byte) : literalRun fmt ++ afterRun fmt = fmt :=
  List.takeWhile_append_dropWhile

theorem afterRun_length (fmt : List Byte) : (afterRun fmt).length ≤ fmt.length :=
  (List.dropWhile_suffix _).length_le

theorem runLength_eq {fmt : List Byte} (h : 0 ∉ fmt) (s : DbgIo σ) :
    runLength (fmt ++ [0]) s = .ok (literalRun fmt).length s := by
  induction fmt with
  | nil => rfl
  | cons c fmt ih =>
    rw [List.mem_cons, not_or] at h
    rw [List.cons_append, runLength]
    by_cases hpercent : c = chr '%'
    · rw [if_neg fun hc => hc.2 hpercent, hpercent, literalRun_percent]
      rfl
    · rw [if_pos ⟨Ne.symm h.1, hpercent⟩, map_eq_pure_bind, bind_of_ok (ih h.2),
        literalRun_cons hpercent]
      rfl

/-- A run goes out whole, and the next round starts behind it. -/
theorem printRun_eq {c : Byte} {fmt : List Byte} {written : Nat} (h : 0 ∉ fmt)
    (hfits : written + (1 + (literalRun fmt).length) < 2 ^ 64) (params : List Arg) (s : DbgIo σ) :
    (runLength (fmt ++ [0]) >>= fun more =>
        printAmount (c :: (fmt ++ [0])) (1 + more) ((c :: (fmt ++ [0])).drop (1 + more)) params
          written) s =
      .ok (.next (afterRun fmt ++ [0]) params (written + (1 + (literalRun fmt).length)))
        (s.send (c :: literalRun fmt)) := by
  have hsplit : c :: (fmt ++ [0]) = (c :: literalRun fmt) ++ (afterRun fmt ++ [0]) := by
    rw [List.cons_append, ← List.append_assoc, literalRun_append_afterRun]
  have hlength : 1 + (literalRun fmt).length = (c :: literalRun fmt).length := by
    rw [List.length_cons, Nat.add_comm]
  rw [bind_of_ok (runLength_eq h s)]
  rw [hlength] at hfits ⊢
  rw [hsplit, printAmount_eq (by simp) hfits, List.take_left, List.drop_left]

theorem piecesFrom_skip (skip : Nat) (fmt : List Byte) :
    piecesFrom skip fmt = piecesFrom 0 (fmt.drop skip) := by
  induction fmt generalizing skip with
  | nil => cases skip <;> rfl
  | cons c fmt ih =>
    cases skip with
    | zero => rfl
    | succ skip => rw [piecesFrom, ih skip, List.drop_succ_cons]

theorem render_run (fmt : List Byte) (args : List Arg) (buffs : StrBuffs) :
    render (piecesFrom 0 fmt) args buffs =
      (render (piecesFrom 0 (afterRun fmt)) args buffs).map (prepend (literalRun fmt)) := by
  induction fmt with
  | nil => rfl
  | cons c fmt ih =>
    by_cases hpercent : c = chr '%'
    · rw [hpercent, literalRun_percent, afterRun_percent]
      exact Option.map_id'.symm
    · rw [literalRun_cons hpercent, afterRun_cons hpercent, piecesFrom, if_pos hpercent, render, ih,
        Option.map_map]
      rfl

/-! ## Rounds -/

/-- What a round leaves to be done: `out` is the text from here on, `written` what was
sent before. -/
structure Ahead (fmt : List Byte) (args : List Arg) (buffs : StrBuffs) (written : Nat)
    (out : List Byte) (final : StrBuffs) : Prop where
  noNul : 0 ∉ fmt
  rendered : render (piecesFrom 0 fmt) args buffs = some (out, final)
  fits : written + out.length < 2 ^ 64

theorem printRound_literal {c : Byte} (h : c ≠ chr '%') (fmt : Chars) (params : List Arg)
    (written : Nat) :
    (printRound (c :: fmt) params written : DbgM σ Round) =
      runLength fmt >>= fun more =>
        printAmount (c :: fmt) (1 + more) ((c :: fmt).drop (1 + more)) params written := by
  simp only [printRound, atLiteral, charAt_zero, pure_bind, ne_eq, h, not_false_eq_true, if_true,
    if_false, List.drop_succ_cons, List.drop_zero]

theorem printRound_percent (fmt : Chars) (params : List Arg) (written : Nat) :
    (printRound (chr '%' :: chr '%' :: fmt) params written : DbgM σ Round) =
      runLength fmt >>= fun more =>
        printAmount (chr '%' :: fmt) (1 + more) ((chr '%' :: fmt).drop (1 + more)) params
          written := rfl

theorem printRound_directive {c : Byte} (h : c ≠ chr '%') (fmt : Chars) (params : List Arg)
    (written : Nat) :
    (printRound (chr '%' :: c :: fmt) params written : DbgM σ Round) =
      directiveRound (chr '%' :: c :: fmt) (c :: fmt) params written := by
  simp only [printRound, atLiteral, charAt_zero, charAt_one, pure_bind, ne_eq, h, not_true_eq_false,
    if_false, decide_false, Bool.false_eq_true, List.drop_succ_cons, List.drop_zero]

/-- The rest of the format after a percent sign that begins no directive. -/
theorem verbatimBranch_eq {fmt : List Byte} {written : Nat} (h : 0 ∉ fmt)
    (hfits : written + fmt.length < 2 ^ 64) (params : List Arg) (s : DbgIo σ) :
    verbatimBranch (fmt ++ [0]) params written s =
      .ok (.next [0] params (written + fmt.length)) (s.send fmt) := by
  have htext : textOf (fmt ++ [0]) = fmt := textOf_append_nul h
  rw [verbatimBranch, bind_of_ok (dbgStrlen_eq (by simp) s), htext, printAmount_eq (by simp) hfits,
    List.take_left, List.drop_left]

/-- What a round does: it sends a part of the text, and leaves a shorter format with the
rest of it. -/
structure Advances (fmt : List Byte) (args : List Arg) (written : Nat) (out : List Byte)
    (s : DbgIo σ) (final : StrBuffs) (text : List Byte) (fmt' : List Byte) (args' : List Arg)
    (buffs' : StrBuffs) (out' : List Byte) : Prop where
  runs : printRound (fmt ++ [0]) args written s =
    .ok (.next (fmt' ++ [0]) args' (written + text.length)) ({ s with buffs := buffs' }.send text)
  sends : out = text ++ out'
  shorter : fmt'.length < fmt.length
  ahead : Ahead fmt' args' buffs' (written + text.length) out' final

/-- The round of a literal run, with or without the percent sign that escapes its first
character. -/
theorem advances_run {whole : List Byte} {c : Byte} {fmt : List Byte} {args : List Arg}
    {written : Nat} {out rest : List Byte} {final : StrBuffs} {s : DbgIo σ}
    (hround : (printRound (whole ++ [0]) args written : DbgM σ Round) =
      runLength (fmt ++ [0]) >>= fun more =>
        printAmount (c :: (fmt ++ [0])) (1 + more) ((c :: (fmt ++ [0])).drop (1 + more)) args
          written)
    (hnul : 0 ∉ fmt) (hshort : fmt.length < whole.length)
    (hrest : render (piecesFrom 0 fmt) args s.buffs = some (rest, final)) (hout : c :: rest = out)
    (hfits : written + out.length < 2 ^ 64) :
    ∃ text fmt' args' buffs' out', Advances whole args written out s final text fmt' args' buffs' out' := by
  rw [render_run, Option.map_eq_some_iff] at hrest
  obtain ⟨⟨out', final'⟩, hrender, hpair⟩ := hrest
  cases hpair
  have hsends : out = (c :: literalRun fmt) ++ out' := by
    rw [← hout, List.cons_append]
  have hlength : (c :: literalRun fmt).length = 1 + (literalRun fmt).length := by
    rw [List.length_cons, Nat.add_comm]
  rw [hsends, List.length_append] at hfits
  refine ⟨c :: literalRun fmt, afterRun fmt, args, s.buffs, out', ?_, hsends, ?_, ?_, hrender, ?_⟩
  · rw [hround, printRun_eq hnul (by omega) args s, hlength]
  · exact Nat.lt_of_le_of_lt (afterRun_length fmt) hshort
  · exact fun hmem => hnul ((List.dropWhile_suffix _).subset hmem)
  · omega

theorem advances_literal {c : Byte} {fmt : List Byte} {args : List Arg} {written : Nat}
    {out : List Byte} {s : DbgIo σ} (hc : c ≠ chr '%')
    {final : StrBuffs} (h : Ahead (c :: fmt) args s.buffs written out final) :
    ∃ text fmt' args' buffs' out',
      Advances (c :: fmt) args written out s final text fmt' args' buffs' out' := by
  obtain ⟨hnul, hrender, hfits⟩ := h
  rw [piecesFrom, if_pos hc, render, Option.map_eq_some_iff] at hrender
  obtain ⟨⟨rest, final'⟩, hrest, hpair⟩ := hrender
  cases hpair
  exact advances_run (printRound_literal hc _ args written)
    (fun hmem => hnul (List.mem_cons_of_mem _ hmem)) (by simp) hrest rfl hfits

theorem advances_percent {fmt : List Byte} {args : List Arg} {written : Nat} {out : List Byte}
    {final : StrBuffs} {s : DbgIo σ}
    (h : Ahead (chr '%' :: chr '%' :: fmt) args s.buffs written out final) :
    ∃ text fmt' args' buffs' out',
      Advances (chr '%' :: chr '%' :: fmt) args written out s final text fmt' args' buffs' out' := by
  obtain ⟨hnul, hrender, hfits⟩ := h
  rw [piecesFrom, if_neg (fun hne => hne rfl), if_pos List.head?_cons, render, piecesFrom_skip,
    List.drop_succ_cons, List.drop_zero, Option.map_eq_some_iff] at hrender
  obtain ⟨⟨rest, final'⟩, hrest, hpair⟩ := hrender
  cases hpair
  exact advances_run (printRound_percent _ args written)
    (fun hmem => hnul (List.mem_cons_of_mem _ (List.mem_cons_of_mem _ hmem)))
    (by simp only [List.length_cons]; omega) hrest rfl hfits

theorem printRound_unescaped {fmt : List Byte} (h : fmt.head? ≠ some (chr '%'))
    (params : List Arg) (written : Nat) :
    (printRound (chr '%' :: fmt ++ [0]) params written : DbgM σ Round) =
      directiveRound (chr '%' :: fmt ++ [0]) (fmt ++ [0]) params written := by
  cases fmt with
  | nil =>
    simp only [List.cons_append, List.nil_append]
    exact printRound_directive (by decide) [] params written
  | cons c fmt =>
    have hc : c ≠ chr '%' := fun heq => h (by rw [heq]; rfl)
    simp only [List.cons_append]
    exact printRound_directive hc (fmt ++ [0]) params written

theorem advances_directive {fmt : List Byte} {args : List Arg} {written : Nat} {out : List Byte}
    {s : DbgIo σ} (hunescaped : fmt.head? ≠ some (chr '%'))
    {final : StrBuffs} (h : Ahead (chr '%' :: fmt) args s.buffs written out final) :
    ∃ text fmt' args' buffs' out',
      Advances (chr '%' :: fmt) args written out s final text fmt' args' buffs' out' := by
  obtain ⟨hnul, hrender, hfits⟩ := h
  have hrest : 0 ∉ fmt := fun hmem => hnul (List.mem_cons_of_mem _ hmem)
  rw [piecesFrom, if_neg (fun hne => hne rfl), if_neg hunescaped] at hrender
  cases hleading : Directive.leading fmt with
  | none =>
    rw [hleading] at hrender
    obtain ⟨hout, hfinal⟩ := Prod.mk.inj (Option.some.inj hrender)
    subst hfinal
    have hout : chr '%' :: fmt ++ [] = out := hout
    rw [List.append_nil] at hout
    rw [← hout] at hfits
    -- no directive follows: the rest of the format is sent as it is
    refine ⟨chr '%' :: fmt, [], args, s.buffs, [], ?_, by rw [← hout, List.append_nil], by simp,
      by simp, rfl, by simpa using hfits⟩
    rw [printRound_unescaped hunescaped, directiveRound_verbatim hleading,
      verbatimBranch_eq hnul hfits]
    rfl
  | some found =>
    obtain ⟨directive, width⟩ := found
    rw [hleading] at hrender
    cases args with
    | nil => cases hrender
    | cons arg args =>
      simp only [render, Option.bind_eq_some_iff, Option.map_eq_some_iff] at hrender
      -- the text of the directive, and then what the format behind it renders
      obtain ⟨⟨text, buffs'⟩, htext, ⟨out', final'⟩, hrender, hpair⟩ := hrender
      cases hpair
      rw [piecesFrom_skip] at hrender
      rw [List.length_append] at hfits
      simp only at hfits
      refine ⟨text, fmt.drop width, args, buffs', out', ?_, rfl, ?_, ?_, hrender, by omega⟩
      · rw [printRound_unescaped hunescaped, directiveRound_leading hleading,
          Directive.branch_eq htext (by omega)]
      · rw [List.length_drop, List.length_cons]
        omega
      · exact fun hmem => hrest (List.mem_of_mem_drop hmem)

theorem printRound_advances {c : Byte} {fmt : List Byte} {args : List Arg} {written : Nat}
    {out : List Byte} {s : DbgIo σ} {final : StrBuffs} (h : Ahead (c :: fmt) args s.buffs written out final) :
    ∃ text fmt' args' buffs' out',
      Advances (c :: fmt) args written out s final text fmt' args' buffs' out' := by
  by_cases hc : c = chr '%'
  · subst c
    by_cases hescaped : fmt.head? = some (chr '%')
    · cases fmt with
      | nil => cases hescaped
      | cons c fmt => cases hescaped; exact advances_percent h
    · exact advances_directive hescaped h
  · exact advances_literal hc h

/-! ## Runs -/

/-- Induction on the fuel: every round leaves a shorter format. -/
theorem printLoop_spec (fuel : Nat) {fmt : List Byte} {args : List Arg} {written : Nat}
    {out : List Byte} {final : StrBuffs} {s : DbgIo σ}
    (h : Ahead fmt args s.buffs written out final) (hfuel : fmt.length < fuel) :
    printLoop fuel (fmt ++ [0]) args written s =
      .ok (written + out.length) ({ s with buffs := final }.send out) := by
  induction fuel generalizing fmt args written out s with
  | zero => omega
  | succ fuel ih =>
    cases fmt with
    | nil =>
      obtain ⟨hout, hfinal⟩ := Prod.mk.inj (Option.some.inj h.rendered)
      rw [← hout, ← hfinal, DbgIo.send_nil]
      rfl
    | cons c fmt =>
      have hc : c ≠ 0 := fun heq => h.noNul (by rw [heq]; exact List.mem_cons_self)
      -- each round shortens the format, so the fuel outlasts it
      obtain ⟨text, fmt', args', buffs', out', hround⟩ := printRound_advances h
      have hshorter := hround.shorter
      have hrest := @ih _ _ _ _ ({ s with buffs := buffs' }.send text) hround.ahead (by omega)
      rw [List.cons_append, printLoop, charAt_zero, pure_bind, if_neg hc, ← List.cons_append,
        bind_of_ok hround.runs]
      simp only
      rw [hrest, hround.sends, List.length_append, Nat.add_assoc]
      congr 1
      rw [← DbgIo.send_send]
      rfl

theorem dbgMsg_spec {fmt : CString} {args : List Arg} {out : List Byte} {final : StrBuffs}
    {s : DbgIo σ} (hout : render (pieces fmt) args s.buffs = some (out, final))
    (hfits : out.length < 2 ^ 64) :
    dbgMsg fmt args s = .ok out.length ({ s with buffs := final }.send out) := by
  have hahead : Ahead fmt.chars args s.buffs 0 out final := ⟨fmt.noNul, hout, by omega⟩
  have hrun := printLoop_spec fmt.object.length hahead (by simp [CString.object])
  rw [Nat.zero_add] at hrun
  exact hrun

/-- The calls of the sink in a slot. -/
def receivedBy (slot : Fin 4) (calls : List (Call σ)) : List (Call σ) :=
  calls.filter fun call => call.slot = slot

/-- One character reaches each slot once. -/
theorem receivedBy_filterMap (sinks : Sinks σ) (c : Byte) (slot : Fin 4) {slots : List (Fin 4)}
    (h : slots.Nodup) :
    receivedBy slot (slots.filterMap fun i => (sinks i).map fun sink => ⟨i, sink, c⟩) =
      if slot ∈ slots then ((sinks slot).map fun sink => ⟨slot, sink, c⟩).toList else [] := by
  induction slots with
  | nil => rfl
  | cons i slots ih =>
    obtain ⟨hi, hrest⟩ := List.nodup_cons.mp h
    have hslots := ih hrest
    unfold receivedBy at hslots ⊢
    by_cases heq : i = slot
    · subst i
      rw [if_neg hi] at hslots
      cases hsink : sinks slot with
      | none => simp [hsink, hslots]
      | some sink => simp [hsink, hslots]
    · have hne : ¬slot = i := fun h => heq h.symm
      cases hsink : sinks i with
      | none => simp [hsink, hslots, hne]
      | some sink => simp [hsink, hslots, hne, heq]

theorem receivedBy_send (sinks : Sinks σ) (text : List Byte) (slot : Fin 4) :
    receivedBy slot (text.flatMap (sinkCalls sinks)) =
      text.flatMap fun c => ((sinks slot).map fun sink => ⟨slot, sink, c⟩).toList := by
  unfold receivedBy
  rw [List.filter_flatMap]
  congr 1
  funext c
  have hone := receivedBy_filterMap sinks c slot (List.nodup_finRange 4)
  rw [if_pos (List.mem_finRange slot)] at hone
  exact hone

/-- `dbg_msg` sends the expansion of the format to every occupied slot, nothing to the
others, and returns its length. -/
def SendsExactly (fmt : CString) (args : List Arg) (s : DbgIo σ) : Prop :=
  ∃ out s' calls, expansion fmt args s.buffs = some out ∧
    dbgMsg fmt args s = .ok out.length s' ∧ s'.sinks = s.sinks ∧ s'.sent = s.sent ++ calls ∧
    (∀ slot sink, s.sinks slot = some sink →
      receivedBy slot calls = out.map fun c => ⟨slot, sink, c⟩) ∧
    ∀ slot, s.sinks slot = none → receivedBy slot calls = []

theorem sends_exactly_of_expansion {fmt : CString} {args : List Arg} {out : List Byte}
    {s : DbgIo σ} (hout : expansion fmt args s.buffs = some out) (hfits : out.length < 2 ^ 64) :
    SendsExactly fmt args s := by
  obtain ⟨⟨text, final⟩, hrender, htext⟩ := Option.map_eq_some_iff.mp hout
  have htext : text = out := htext
  rw [htext] at hrender
  have hrun := dbgMsg_spec hrender hfits
  refine ⟨out, _, out.flatMap (sinkCalls s.sinks), hout, hrun, rfl, rfl, ?_, ?_⟩
  · intro slot sink hsink
    rw [receivedBy_send, hsink]
    exact List.map_eq_flatMap.symm
  · intro slot hsink
    rw [receivedBy_send, hsink]
    simp

/-! ## The sinks that are registered -/

inductive SinkOp (σ : Type) where
  | register (sink : σ)
  | unregister (sink : σ)

def DbgIo.boot : DbgIo σ where
  sinks := fun _ => none
  buffs := fun _ _ => 0
  sent := []

variable [DecidableEq σ]

def runSinkOps : List (SinkOp σ) → DbgM σ Unit
  | [] => pure ()
  | .register sink :: ops => do
    let _ ← dbgRegisterSink sink
    runSinkOps ops
  | .unregister sink :: ops => do
    dbgUnregisterSink sink
    runSinkOps ops

/-- The slots after a sequence of calls. -/
def sinksAfter (ops : List (SinkOp σ)) : Sinks σ := (after (runSinkOps ops) DbgIo.boot).sinks

/-- Whatever sinks were registered and whatever the buffers hold. -/
theorem sends_exactly_iff (ops : List (SinkOp σ)) (buffs : StrBuffs) (sent : List (Call σ))
    (fmt : CString) (args : List Arg) (hmatch : Matching (directives (pieces fmt)) args)
    (hfits : ∀ out, expansion fmt args buffs = some out → out.length < 2 ^ 64) :
    SendsExactly fmt args ⟨sinksAfter ops, buffs, sent⟩ ↔
      NoOneDigit (directives (pieces fmt)) args := by
  rw [← render_isSome_iff buffs hmatch]
  constructor
  · intro hsends
    obtain ⟨out, _, _, hout, _⟩ := hsends
    obtain ⟨result, hrender, _⟩ := Option.map_eq_some_iff.mp hout
    rw [hrender]
    rfl
  · intro hexpansion
    obtain ⟨result, hrender⟩ := Option.isSome_iff_exists.mp hexpansion
    have hout : expansion fmt args buffs = some result.1 := by
      rw [expansion, hrender]
      rfl
    exact sends_exactly_of_expansion hout (hfits _ hout)

end Run

def progress : CString := .literal "at %u%%"

def emptyBuffs : StrBuffs := fun _ _ => 0

theorem progress_expansion :
    expansion progress [.int 42] emptyBuffs = some ("at 42%".toList.map chr) := by
  decide +kernel

theorem progress_sent :
    SendsExactly progress [.int 42] ⟨sinksAfter [SinkOp.register 7], emptyBuffs, []⟩ := by
  have hmatch : Matching (directives (pieces progress)) [.int 42] := ⟨rfl, trivial⟩
  have hdigits : NoOneDigit (directives (pieces progress)) [.int 42] :=
    ⟨fun hdigit => absurd (show (42#32).toNat < 10 from hdigit) (by decide), trivial⟩
  refine (sends_exactly_iff [SinkOp.register 7] emptyBuffs [] progress [.int 42] hmatch ?_).mpr
    hdigits
  intro out hout
  rw [progress_expansion] at hout
  cases hout
  decide

/-- `dbg_msg("at %u%%", 5)` stores a digit in front of `toU64StrBuff`. -/
theorem progress_digit_not_sent :
    stopOf (dbgMsg progress [.int 5]) ⟨sinksAfter [SinkOp.register 7], emptyBuffs, []⟩ =
        some .store ∧
      ¬SendsExactly progress [.int 5] ⟨sinksAfter [SinkOp.register 7], emptyBuffs, []⟩ := by
  have hstop : stopOf (dbgMsg progress [.int 5])
      ⟨sinksAfter [SinkOp.register 7], emptyBuffs, []⟩ = some .store := by
    decide +kernel
  refine ⟨hstop, ?_⟩
  intro hsends
  obtain ⟨out, s', calls, _, hrun, _⟩ := hsends
  rw [eq_error_of_stopOf hstop] at hrun
  cases hrun

end MidnightOS.Debug
