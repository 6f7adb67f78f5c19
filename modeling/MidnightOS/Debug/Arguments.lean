import MidnightOS.Debug.Handlers
import MidnightOS.Debug.PlainText
import MidnightOS.Debug.Words

/-! # What a handler learns from its arguments

The string functions stop at the NUL, so an argument counts for its word alone.  Two
runs of a handler on arguments that point to the same words end alike.
-/

namespace MidnightOS.Debug

open MidnightOS.Lib
open MidnightOS.Arch (U64 IntInfo)

/-! ## Strings stop at the NUL -/

theorem dbgStrcmp_text {str : Chars} (hnul : 0 ∈ str) {name : List Byte} (hname : 0 ∉ name) :
    ∃ order, dbgStrcmp str (name ++ [0]) = .ok order ∧ (order = 0 ↔ textOf str = name) := by
  induction str generalizing name with
  | nil => cases hnul
  | cons c str ih =>
    cases name with
    | nil =>
      -- the name is at its end: equal exactly if the string is as well
      have hstop : ¬(c = 0 ∧ c ≠ 0 ∧ (0 : Byte) ≠ 0) := fun h => h.2.2 rfl
      refine ⟨(c.toNat : Int) - (0 : Byte).toNat, by rw [List.nil_append, dbgStrcmp, if_neg hstop],
        ?_⟩
      by_cases hc : c = 0
      · subst c
        simp [textOf]
      · rw [textOf_cons hc]
        have hne : c.toNat ≠ 0 := fun h => hc (BitVec.eq_of_toNat_eq h)
        constructor
        · intro horder
          have : (0 : Byte).toNat = 0 := rfl
          omega
        · intro h
          cases h
    | cons n name =>
      rw [List.mem_cons, not_or] at hname
      by_cases hc : c = n
      · subst c
        have hn : n ≠ 0 := Ne.symm hname.1
        have hrest : 0 ∈ str := by
          cases hnul with
          | head => exact absurd rfl hn
          | tail _ hmem => exact hmem
        -- equal characters that are not NUL are skipped
        obtain ⟨order, hrun, hiff⟩ := ih hrest hname.2
        refine ⟨order, by rw [List.cons_append, dbgStrcmp, if_pos ⟨rfl, hn, hn⟩, hrun], ?_⟩
        rw [hiff, textOf_cons hn, List.cons_inj_right]
      · -- the first difference decides, and is not 0
        refine ⟨(c.toNat : Int) - n.toNat,
          by rw [List.cons_append, dbgStrcmp, if_neg fun h => hc h.1], ?_⟩
        have hne : c.toNat ≠ n.toNat := fun h => hc (BitVec.eq_of_toNat_eq h)
        constructor
        · intro horder
          omega
        · intro htext
          by_cases hzero : c = 0
          · rw [hzero] at htext
            cases htext
          · rw [textOf_cons hzero] at htext
            cases htext
            exact absurd rfl hc

theorem exists_text {str : Chars} (hnul : 0 ∈ str) : ∃ rest, str = textOf str ++ 0 :: rest := by
  induction str with
  | nil => cases hnul
  | cons c str ih =>
    by_cases hc : c = 0
    · subst c
      exact ⟨str, rfl⟩
    · have hrest : 0 ∈ str := by
        cases hnul with
        | head => exact absurd rfl hc
        | tail _ hmem => exact hmem
      obtain ⟨rest, hsplit⟩ := ih hrest
      refine ⟨rest, ?_⟩
      rw [textOf_cons hc, List.cons_append, ← hsplit]

/-- A function that reads a string up to its NUL and no further. -/
def StaysInside {α : Type} (f : Chars → Except Fault α) : Prop :=
  ∀ word rest, 0 ∉ word → ∃ a, f (word ++ 0 :: rest) = .ok a ∧ f (word ++ [0]) = .ok a

theorem decimalLoop_stays (n : BitVec 64) : StaysInside (decimalLoop n) := by
  intro word rest hnul
  induction word generalizing n with
  | nil => exact ⟨n, rfl, rfl⟩
  | cons c word ih =>
    rw [List.mem_cons, not_or] at hnul
    simp only [List.cons_append, decimalLoop]
    by_cases hdigit : dbgIsdigit c = true
    · rw [if_pos hdigit, if_pos hdigit]
      exact ih _ hnul.2
    · rw [if_neg hdigit, if_neg hdigit]
      exact ⟨n, rfl, rfl⟩

theorem hexLoop_stays (n : BitVec 64) : StaysInside (hexLoop n) := by
  intro word rest hnul
  induction word generalizing n with
  | nil => exact ⟨n, rfl, rfl⟩
  | cons c word ih =>
    rw [List.mem_cons, not_or] at hnul
    have hc : c ≠ 0 := Ne.symm hnul.1
    simp only [List.cons_append, hexLoop, if_neg hc]
    cases hexValue c with
    | none => exact ⟨n, rfl, rfl⟩
    | some digit => exact ih _ hnul.2

/-- White space is skipped up to a character that the string has too. -/
theorem skip_spaces {word : List Byte} (hnul : 0 ∉ word) (rest : List Byte) :
    ∃ word', 0 ∉ word' ∧ skip dbgIsspace (word ++ 0 :: rest) = .ok (word' ++ 0 :: rest) ∧
      skip dbgIsspace (word ++ [0]) = .ok (word' ++ [0]) := by
  induction word with
  | nil => exact ⟨[], hnul, rfl, rfl⟩
  | cons c word ih =>
    have hrest : 0 ∉ word := fun hmem => hnul (List.mem_cons_of_mem _ hmem)
    simp only [List.cons_append, skip]
    by_cases hspace : dbgIsspace c = true
    · rw [if_pos hspace, if_pos hspace]
      exact ih hrest
    · rw [if_neg hspace, if_neg hspace]
      exact ⟨c :: word, hnul, rfl, rfl⟩

/-- `dbg_atol` behind the sign. -/
def atolUnsigned (neg : Bool) (str : Chars) : Except Fault (BitVec 64) := do
  let first ← load str 0
  if first = chr '0' then
    let second ← load str 1
    if second = chr 'x' ∨ second = chr 'X' then
      let n ← hexLoop 0 (str.drop 2)
      .ok (if neg then -n else n)
    else
      let n ← decimalLoop 0 str
      .ok (if neg then n else -n)
  else
    let n ← decimalLoop 0 str
    .ok (if neg then n else -n)

theorem dbgAtol_eq (str : Chars) :
    dbgAtol str = skip dbgIsspace str >>= fun str => load str 0 >>= fun sign =>
      atolUnsigned (decide (sign = chr '-'))
        (if sign = chr '-' ∨ sign = chr '+' then str.drop 1 else str) := rfl

theorem load_zero (c : Byte) (str : Chars) : load (c :: str) 0 = .ok c := rfl

theorem load_one (c c' : Byte) (str : Chars) : load (c :: c' :: str) 1 = .ok c' := rfl

theorem atolUnsigned_stays (neg : Bool) : StaysInside (atolUnsigned neg) := by
  intro word rest hnul
  obtain ⟨n, hlong, hshort⟩ := decimalLoop_stays 0 word rest hnul
  cases word with
  | nil => exact ⟨_, rfl, rfl⟩
  | cons first word =>
    rw [List.cons_append] at hlong hshort
    simp only [atolUnsigned, List.cons_append, load_zero, ok_bind]
    by_cases hzero : first = chr '0'
    · simp only [if_pos hzero]
      cases word with
      | nil =>
        rw [List.nil_append] at hlong hshort
        -- a lone `0`: what follows it is the terminator
        have hsecond : ¬((0 : Byte) = chr 'x' ∨ (0 : Byte) = chr 'X') := by decide
        simp only [List.nil_append, load_one, ok_bind, if_neg hsecond, hlong, hshort]
        exact ⟨_, rfl, rfl⟩
      | cons second word =>
        rw [List.cons_append] at hlong hshort
        simp only [List.cons_append, load_one, ok_bind]
        by_cases hex : second = chr 'x' ∨ second = chr 'X'
        · -- `0x`
          have hrest : 0 ∉ word :=
            fun hmem => hnul (List.mem_cons_of_mem _ (List.mem_cons_of_mem _ hmem))
          obtain ⟨n, hlong, hshort⟩ := hexLoop_stays 0 word rest hrest
          simp only [if_pos hex, List.drop_succ_cons, List.drop_zero, hlong, hshort, ok_bind]
          exact ⟨_, rfl, rfl⟩
        · simp only [if_neg hex, hlong, hshort, ok_bind]
          exact ⟨_, rfl, rfl⟩
    · simp only [if_neg hzero, hlong, hshort, ok_bind]
      exact ⟨_, rfl, rfl⟩

theorem dbgAtol_stays : StaysInside dbgAtol := by
  intro word rest hnul
  obtain ⟨word', hnul', hlong, hshort⟩ := skip_spaces hnul rest
  rw [dbgAtol_eq, dbgAtol_eq, hlong, hshort, ok_bind, ok_bind]
  cases word' with
  | nil => exact ⟨_, rfl, rfl⟩
  | cons sign word' =>
    simp only [List.cons_append, load_zero, ok_bind]
    by_cases hsign : sign = chr '-' ∨ sign = chr '+'
    · simp only [if_pos hsign, List.drop_succ_cons, List.drop_zero]
      exact atolUnsigned_stays _ word' rest fun hmem => hnul' (List.mem_cons_of_mem _ hmem)
    · simp only [if_neg hsign]
      exact atolUnsigned_stays _ (sign :: word') rest hnul'

/-- The number a word stands for. -/
def numberOf (word : List Byte) : U64 := ((dbgAtol (word ++ [0])).toOption).getD 0

theorem dbgAtol_text {str : Chars} (hnul : 0 ∈ str) : dbgAtol str = .ok (numberOf (textOf str)) := by
  obtain ⟨rest, hsplit⟩ := exists_text hnul
  obtain ⟨n, hlong, hshort⟩ := dbgAtol_stays (textOf str) rest (zero_notMem_textOf str)
  rw [numberOf, hshort]
  conv_lhs => rw [hsplit, hlong]
  rfl

/-! ## Arguments -/

/-- The pointers in `argv` point to the words. -/
def Reads (argv : Argv) (ws : List (List Byte)) : Prop :=
  ∀ i word, ws[i]? = some word → ∃ str, argv i = .ok str ∧ 0 ∈ str ∧ textOf str = word

theorem Reads.tail {argv : Argv} {word : List Byte} {ws : List (List Byte)}
    (h : Reads argv (word :: ws)) : Reads (fun i => argv (i + 1)) ws :=
  fun i other hi => h (i + 1) other hi

variable {σ : Type}

theorem argIs_eq {argv : Argv} {ws : List (List Byte)} (h : Reads argv ws) {i : Nat}
    {word : List Byte} (hi : ws[i]? = some word) (name : CString) :
    (argIs argv i name : HandlerM σ Bool) = pure (decide (word = name.chars)) := by
  obtain ⟨str, hargv, hnul, htext⟩ := h i word hi
  obtain ⟨order, hrun, hiff⟩ := dbgStrcmp_text hnul name.noNul
  rw [htext] at hiff
  unfold argIs
  rw [hargv, ok_bind]
  rw [CString.object, hrun, ok_bind]
  simp only [fetch, hiff]

theorem argAtol_eq {argv : Argv} {ws : List (List Byte)} (h : Reads argv ws) {i : Nat}
    {word : List Byte} (hi : ws[i]? = some word) :
    (argAtol argv i : HandlerM σ U64) = pure (numberOf word) := by
  obtain ⟨str, hargv, hnul, htext⟩ := h i word hi
  unfold argAtol
  rw [hargv, ok_bind, dbgAtol_text hnul, htext]
  rfl

theorem argString_eq {argv : Argv} {ws : List (List Byte)} (h : Reads argv ws) {i : Nat}
    {word : List Byte} (hi : ws[i]? = some word) :
    ∃ hword : 0 ∉ word, (argString argv i : HandlerM σ CString) = pure ⟨word, hword⟩ := by
  obtain ⟨str, hargv, hnul, htext⟩ := h i word hi
  subst htext
  refine ⟨zero_notMem_textOf str, ?_⟩
  unfold argString
  rw [hargv, ok_bind, if_pos (List.any_eq_true.mpr ⟨0, hnul, decide_eq_true rfl⟩)]
  rfl

end MidnightOS.Debug
