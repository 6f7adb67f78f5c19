import MidnightOS.Debug.Decimal
import MidnightOS.Debug.Arguments
import Mathlib.Data.BitVec
import Mathlib.Tactic.Ring

/-! # Numbers that are typed back

`dbg_atol` reads what the hexadecimal routines print behind a `0x`, and what the
signed decimal routine prints.  Its accumulators wrap, which is what addresses in
the upper half need.
-/

namespace MidnightOS.Debug

open MidnightOS.Lib

/-! ## Hexadecimal -/

def hexText (digits v : Nat) : List Byte :=
  (List.range digits).reverse.map fun i => hexDigit ((v >>> (i * 4)) &&& 0xF)

theorem hexText_succ (digits v : Nat) :
    hexText (digits + 1) v = hexDigit (v / 16 ^ digits % 16) :: hexText digits v := by
  have hdigit : (v >>> (digits * 4)) &&& 0xF = v / 16 ^ digits % 16 := by
    rw [Nat.shiftRight_eq_div_pow, Nat.mul_comm, Nat.pow_mul]
    exact Nat.and_two_pow_sub_one_eq_mod _ 4
  rw [hexText, List.range_succ, List.reverse_append, List.reverse_singleton, List.singleton_append,
    List.map_cons, hdigit]
  rfl

theorem length_hexText (digits v : Nat) : (hexText digits v).length = digits := by
  rw [hexText, List.length_map, List.length_reverse, List.length_range]

theorem zero_notMem_hexText (digits v : Nat) : 0 ∉ hexText digits v := by
  have hall : ∀ d < 16, (0 : Byte) ≠ hexDigit d := by decide
  induction digits with
  | zero => exact List.not_mem_nil
  | succ digits ih =>
    rw [hexText_succ, List.mem_cons, not_or]
    exact ⟨hall _ (Nat.mod_lt _ (by decide)), ih⟩

theorem hexStores_eq (digits v : Nat) :
    hexStores digits digits v =
      backwards 0 (hexText digits v) ++ [(((hexText digits v).length : Int), 0)] := by
  have hcells : ∀ first : Nat, (List.range digits).map (fun i : Nat =>
      ((first : Int) + digits - 1 - i, hexDigit ((v >>> (i * 4)) &&& 0xF))) =
        backwards first (hexText digits v) := by
    induction digits with
    | zero => exact fun first => rfl
    | succ digits ih =>
      intro first
      rw [List.range_succ, List.map_append, List.map_singleton, hexText]
      rw [List.range_succ, List.reverse_append, List.reverse_singleton, List.singleton_append,
        List.map_cons, backwards]
      congr 1
      · have := ih (first + 1)
        rw [hexText] at this
        rw [← this]
        apply List.map_congr_left
        intro i hi
        congr 1
        omega
      · congr 2
        omega
  rw [hexStores, length_hexText, ← hcells 0]
  simp

theorem hexValue_hexDigit {d : Nat} (h : d < 16) :
    hexValue (hexDigit d) = some (BitVec.ofNat 64 d) := by
  have hall : ∀ d < 16, hexValue (hexDigit d) = some (BitVec.ofNat 64 d) := by decide
  exact hall d h

theorem hexLoop_cons {c : Byte} {digit : BitVec 64} (h : hexValue c = some digit) (n : BitVec 64)
    (str : Chars) : hexLoop n (c :: str) = hexLoop (n * 16 + digit) str := by
  have hc : c ≠ 0 := by
    rintro rfl
    have hnul : hexValue 0 = none := by decide
    rw [hnul] at h
    cases h
  rw [hexLoop, if_neg hc, h]

theorem hexLoop_hexText (digits v m : Nat) (str : Chars) :
    hexLoop (BitVec.ofNat 64 m) (hexText digits v ++ str) =
      hexLoop (BitVec.ofNat 64 (m * 16 ^ digits + v % 16 ^ digits)) str := by
  induction digits generalizing m with
  | zero =>
    rw [Nat.pow_zero, Nat.mod_one, Nat.mul_one]
    rfl
  | succ digits ih =>
    have hdigit := hexValue_hexDigit (d := v / 16 ^ digits % 16) (Nat.mod_lt _ (by decide))
    have hnext : BitVec.ofNat 64 m * 16 + BitVec.ofNat 64 (v / 16 ^ digits % 16) =
        BitVec.ofNat 64 (m * 16 + v / 16 ^ digits % 16) := by
      rw [BitVec.ofNat_add, BitVec.ofNat_mul]
      rfl
    rw [hexText_succ, List.cons_append, hexLoop_cons hdigit, hnext, ih]
    -- the digit counts for its place
    have hvalue : (m * 16 + v / 16 ^ digits % 16) * 16 ^ digits + v % 16 ^ digits =
        m * 16 ^ (digits + 1) + v % 16 ^ (digits + 1) := by
      rw [Nat.mod_pow_succ, Nat.pow_succ]
      ring
    rw [hvalue]

/-- The loop stops in front of anything that is no digit. -/
theorem hexLoop_stops {c : Byte} (h : hexValue c = none) (n : BitVec 64) (str : Chars) :
    hexLoop n (c :: str) = .ok n := by
  rw [hexLoop]
  by_cases hc : c = 0
  · rw [if_pos hc]
  · rw [if_neg hc, h]

/-! ## Decimal -/

theorem dbgIsdigit_iff (c : Byte) : dbgIsdigit c = true ↔ 48 ≤ c.toNat ∧ c.toNat ≤ 57 := by
  have hc := c.isLt
  have hzero : (48 : BitVec 32).toNat = 48 := rfl
  rw [dbgIsdigit, decide_eq_true_iff, BitVec.toNat_sub, BitVec.toNat_signExtend,
    BitVec.toNat_setWidth]
  cases hmsb : c.msb with
  | true =>
    -- a negative character is a large number once `'0'` is taken off
    have hlarge := BitVec.msb_eq_true_iff_two_mul_ge.mp hmsb
    simp only [if_true]
    omega
  | false =>
    simp only [Bool.false_eq_true, if_false]
    omega

theorem digit_eq {c : Byte} (h : dbgIsdigit c = true) : ∃ d < 10, c = BitVec.ofNat 8 (48 + d) := by
  obtain ⟨hlow, hhigh⟩ := (dbgIsdigit_iff c).mp h
  refine ⟨c.toNat - 48, by omega, ?_⟩
  rw [Nat.add_sub_cancel' hlow, BitVec.ofNat_toNat, BitVec.setWidth_eq]

theorem digit_of_isDigit {c : Char} (h : c.isDigit = true) :
    dbgIsdigit (chr c) = true ∧
      (chr c).setWidth 64 - 48 = BitVec.ofNat 64 (c.toNat - '0'.toNat) := by
  have hall : ∀ d < 10, dbgIsdigit (BitVec.ofNat 8 (48 + d)) = true ∧
      (BitVec.ofNat 8 (48 + d)).setWidth 64 - 48 = BitVec.ofNat 64 d := by decide
  obtain ⟨hlow, hhigh⟩ := Char.isDigit_iff_toNat.mp h
  have hzero : '0'.toNat = 48 := rfl
  have hnine : '9'.toNat = 57 := rfl
  have hchar : chr c = BitVec.ofNat 8 (48 + (c.toNat - '0'.toNat)) := by
    rw [chr, hzero, Nat.add_sub_cancel' (hzero ▸ hlow)]
  rw [hchar]
  exact hall _ (by omega)

/-- The accumulator is the number read so far, negated. -/
theorem decimalLoop_digits {digits : List Char} (h : ∀ c ∈ digits, c.isDigit = true) (m : Nat)
    (str : Chars) :
    decimalLoop (-BitVec.ofNat 64 m) (digits.map chr ++ str) =
      decimalLoop (-BitVec.ofNat 64 (Nat.ofDigitChars 10 digits m)) str := by
  induction digits generalizing m with
  | nil => rfl
  | cons c digits ih =>
    rw [List.forall_mem_cons] at h
    obtain ⟨hdigit, hvalue⟩ := digit_of_isDigit h.1
    have hnext : 10 * -BitVec.ofNat 64 m - ((chr c).setWidth 64 - 48) =
        -BitVec.ofNat 64 (10 * m + (c.toNat - '0'.toNat)) := by
      have hten : BitVec.ofNat 64 10 = 10 := rfl
      rw [hvalue, BitVec.ofNat_add, BitVec.ofNat_mul, hten]
      ring
    rw [List.map_cons, List.cons_append, decimalLoop, if_pos hdigit, hnext, ih h.2,
      Nat.ofDigitChars_cons]

theorem decimalLoop_stops {c : Byte} (h : dbgIsdigit c = false) (n : BitVec 64) (str : Chars) :
    decimalLoop n (c :: str) = .ok n := by
  rw [decimalLoop, if_neg (by rw [h]; exact Bool.false_ne_true)]

theorem decimalLoop_digitsText (n : Nat) {c : Byte} (hc : dbgIsdigit c = false) (str : Chars) :
    decimalLoop 0 (digitsText n ++ c :: str) = .ok (-BitVec.ofNat 64 n) := by
  have hdigits : ∀ c ∈ Nat.toDigits 10 n, c.isDigit = true :=
    fun c hc => Nat.isDigit_of_mem_toDigits (by decide) (by decide) hc
  have hrun := decimalLoop_digits hdigits 0 (c :: str)
  rw [Nat.ofDigitChars_ten_toDigits, decimalLoop_stops hc] at hrun
  exact hrun

/-! ## `dbg_atol` -/

theorem skip_append {spaces : List Byte} (hspaces : ∀ c ∈ spaces, dbgIsspace c = true) {c : Byte}
    (hc : dbgIsspace c = false) (str : Chars) :
    skip dbgIsspace (spaces ++ c :: str) = .ok (c :: str) := by
  induction spaces with
  | nil =>
    rw [List.nil_append, skip, hc]
    rfl
  | cons space spaces ih =>
    rw [List.forall_mem_cons] at hspaces
    rw [List.cons_append, skip, if_pos hspaces.1]
    exact ih hspaces.2

/-- A number without a sign, behind white space. -/
theorem dbgAtol_unsigned {spaces : List Byte} (hspaces : ∀ c ∈ spaces, dbgIsspace c = true)
    {first : Byte} (hfirst : dbgIsdigit first = true) (str : Chars) :
    dbgAtol (spaces ++ first :: str) = atolUnsigned false (first :: str) := by
  have hall : ∀ d < 10, dbgIsspace (BitVec.ofNat 8 (48 + d)) = false ∧
      ¬BitVec.ofNat 8 (48 + d) = chr '-' ∧
        ¬(BitVec.ofNat 8 (48 + d) = chr '-' ∨ BitVec.ofNat 8 (48 + d) = chr '+') := by
    decide
  obtain ⟨d, hd, rfl⟩ := digit_eq hfirst
  obtain ⟨hspace, hminus, hsign⟩ := hall d hd
  rw [dbgAtol_eq, skip_append hspaces hspace, ok_bind, load_zero, ok_bind, if_neg hsign,
    decide_eq_false hminus]

theorem dbgAtol_minus {spaces : List Byte} (hspaces : ∀ c ∈ spaces, dbgIsspace c = true)
    (str : Chars) : dbgAtol (spaces ++ chr '-' :: str) = atolUnsigned true str := by
  rw [dbgAtol_eq, skip_append hspaces (by decide), ok_bind, load_zero, ok_bind, if_pos (.inl rfl)]
  rfl

theorem atolUnsigned_hex {c : Byte} (hc : hexValue c = none) (digits v : Nat) (str : Chars) :
    atolUnsigned false (chr '0' :: chr 'x' :: (hexText digits v ++ c :: str)) =
      .ok (BitVec.ofNat 64 (v % 16 ^ digits)) := by
  have hrun := hexLoop_hexText digits v 0 (c :: str)
  rw [Nat.zero_mul, Nat.zero_add, hexLoop_stops hc] at hrun
  simp only [atolUnsigned, load_zero, load_one, ok_bind, if_pos, true_or, List.drop_succ_cons,
    List.drop_zero]
  rw [show (0 : BitVec 64) = BitVec.ofNat 64 0 from rfl, hrun]
  rfl

theorem isDigit_of_mem {n : Nat} {c : Byte} (h : c ∈ digitsText n) : dbgIsdigit c = true := by
  obtain ⟨char, hchar, rfl⟩ := List.mem_map.mp h
  exact (digit_of_isDigit (Nat.isDigit_of_mem_toDigits (by decide) (by decide) hchar)).1

/-- What follows a leading `0` is no `x`. -/
theorem second_of_digitsText {n : Nat} {c : Byte} (hx : n = 0 → ¬(c = chr 'x' ∨ c = chr 'X'))
    (str : Chars) :
    ∃ first second rest, digitsText n ++ c :: str = first :: second :: rest ∧
      (first = chr '0' → ¬(second = chr 'x' ∨ second = chr 'X')) := by
  have hall : ∀ d < 10,
      ¬(BitVec.ofNat 8 (48 + d) = chr 'x' ∨ BitVec.ofNat 8 (48 + d) = chr 'X') := by
    decide
  have hdigit : ∀ c : Byte, dbgIsdigit c = true → ¬(c = chr 'x' ∨ c = chr 'X') := by
    intro c hc
    obtain ⟨d, hd, rfl⟩ := digit_eq hc
    exact hall d hd
  cases htext : digitsText n with
  | nil =>
    have := length_digitsText n
    rw [htext] at this
    cases this
  | cons first rest =>
    cases rest with
    | nil =>
      -- one digit, and the tail behind it
      refine ⟨first, c, str, rfl, fun hzero => hx ?_⟩
      have hsmall : n < 10 := by
        by_contra hlarge
        have hlength := length_digitsText n
        have := Nat.log_pos (b := 10) (by decide) (Nat.le_of_not_lt hlarge)
        rw [htext, List.length_singleton] at hlength
        omega
      have hall : ∀ d < 10, decimalDigit (BitVec.ofNat 8 d) = chr '0' → d = 0 := by decide
      rw [digitsText_of_lt hsmall, List.singleton_inj] at htext
      have := hall (n % 10) (by omega) (htext.trans hzero)
      omega
    | cons second rest =>
      have hsecond : second ∈ digitsText n := by
        rw [htext]
        simp
      exact ⟨first, second, rest ++ c :: str, rfl, fun _ => hdigit second (isDigit_of_mem hsecond)⟩

/-- Decimal digits are read as such: a leading `0` is no prefix unless an `x` follows. -/
theorem atolUnsigned_decimal (neg : Bool) {n : Nat} {c : Byte} (hc : dbgIsdigit c = false)
    (hx : n = 0 → ¬(c = chr 'x' ∨ c = chr 'X')) (str : Chars) :
    atolUnsigned neg (digitsText n ++ c :: str) =
      .ok (if neg then -BitVec.ofNat 64 n else BitVec.ofNat 64 n) := by
  have hrun := decimalLoop_digitsText n hc str
  obtain ⟨first, second, rest, htext, hsecond⟩ := second_of_digitsText hx str
  rw [htext] at hrun ⊢
  have hvalue : (if neg then -BitVec.ofNat 64 n else - -BitVec.ofNat 64 n) =
      if neg then -BitVec.ofNat 64 n else BitVec.ofNat 64 n := by
    rw [neg_neg]
  simp only [atolUnsigned, load_zero, ok_bind]
  by_cases hzero : first = chr '0'
  · simp only [if_pos hzero, load_one, ok_bind, if_neg (hsecond hzero), hrun]
    rw [hvalue]
  · simp only [if_neg hzero, hrun, ok_bind]
    rw [hvalue]

/-! ## Round trips -/

def hexDigits : List Byte := "0123456789abcdefABCDEF".toList.map chr

def decimalDigits : List Byte := "0123456789".toList.map chr

/-- `dbg_atol` reads `v` in what a routine prints, behind white space and a prefix and in front of
any string that begins with no other character than those that end the number. -/
def TypedBack (routine : BuffM Chars) (before : List Byte) (v : BitVec 64) (ends : Byte → Prop) :
    Prop :=
  ∀ buffs, ∃ text buffs', returned routine buffs = some (text, buffs') ∧
    ∀ spaces tail : List Byte, (∀ c ∈ spaces, dbgIsspace c = true) → 0 ∈ tail →
      (∀ c ∈ tail.head?, ends c) → dbgAtol (spaces ++ before ++ text ++ tail) = .ok v

theorem decimalDigits_eq : decimalDigits = [48, 49, 50, 51, 52, 53, 54, 55, 56, 57] := by decide

theorem hexDigits_eq :
    hexDigits = decimalDigits ++ [97, 98, 99, 100, 101, 102, 65, 66, 67, 68, 69, 70] := by
  decide

theorem isDigit_eq_false {c : Byte} (h : c ∉ decimalDigits) : dbgIsdigit c = false := by
  have hall : ∀ d < 10, BitVec.ofNat 8 (48 + d) ∈
      ([48, 49, 50, 51, 52, 53, 54, 55, 56, 57] : List Byte) := by
    decide
  rw [decimalDigits_eq] at h
  refine Bool.eq_false_iff.mpr fun hdigit => ?_
  obtain ⟨d, hd, rfl⟩ := digit_eq hdigit
  exact h (hall d hd)

theorem hexValue_eq_none {c : Byte} (h : c ∉ hexDigits) : hexValue c = none := by
  rw [hexDigits_eq, List.mem_append, not_or] at h
  obtain ⟨hdecimal, hletters⟩ := h
  simp only [List.mem_cons, List.not_mem_nil, or_false, not_or] at hletters
  rw [hexValue, isDigit_eq_false hdecimal, if_neg Bool.false_ne_true, if_neg, if_neg]
  · rintro ⟨hlow, hhigh⟩
    bv_omega
  · rintro ⟨hlow, hhigh⟩
    bv_omega

theorem typedBack_hex (name : StrBuffName) {digits v : Nat} (hdigits : digits ≤ 20)
    (hv : v < 16 ^ digits) :
    TypedBack (convert name (some (hexStores digits digits v))) [chr '0', chr 'x']
      (BitVec.ofNat 64 v) (· ∉ hexDigits) := by
  intro buffs
  have hprints := prints_backwards name (zero_notMem_hexText digits v)
    ((length_hexText digits v).trans_le hdigits)
  obtain ⟨buffs', hreturned⟩ := hprints.returns buffs
  rw [← hexStores_eq] at hreturned
  refine ⟨_, buffs', hreturned, fun spaces tail hspaces hnul hends => ?_⟩
  cases tail with
  | nil => cases hnul
  | cons c tail =>
    have hnone := hexValue_eq_none (hends c rfl)
    have hread := atolUnsigned_hex hnone digits v tail
    rw [Nat.mod_eq_of_lt hv] at hread
    rw [List.append_assoc, List.append_assoc]
    exact (dbgAtol_unsigned hspaces (by decide) _).trans hread

theorem typedBack_signed {v : BitVec 64} (h : (BitVec.intMin 64).toInt < v.toInt) :
    TypedBack (s64ToStr v) [] v
      (fun c => c ∉ decimalDigits ∧ (v = 0 → c ≠ chr 'x' ∧ c ≠ chr 'X')) := by
  intro buffs
  have hmin : v ≠ BitVec.intMin 64 := by
    rintro rfl
    exact absurd h (Int.lt_irrefl _)
  obtain ⟨buffs', hreturned⟩ := (s64ToStr_prints hmin).returns buffs
  refine ⟨_, buffs', hreturned, fun spaces tail hspaces hnul hends => ?_⟩
  cases tail with
  | nil => cases hnul
  | cons c tail =>
    obtain ⟨hdigit, hzero⟩ := hends c rfl
    have hstop := isDigit_eq_false hdigit
    rw [List.append_nil, List.append_assoc]
    by_cases hneg : v.toInt < 0
    · -- the sign, and the number without it
      have hnat : v.toInt = -((-v.toInt).toNat : Int) := by omega
      have hvalue : v = -BitVec.ofNat 64 (-v.toInt).toNat := by
        rw [← BitVec.ofInt_natCast, ← BitVec.ofInt_neg, ← hnat, BitVec.ofInt_toInt]
      have hread := atolUnsigned_decimal true hstop (n := (-v.toInt).toNat)
        (fun hn => absurd hn (by omega)) tail
      rw [hnat, decimalText_neg (by omega), List.cons_append, dbgAtol_minus hspaces, hread]
      exact congrArg Except.ok hvalue.symm
    · have hint := toInt_of_nonneg (Int.not_lt.mp hneg)
      have hread := atolUnsigned_decimal false hstop (n := v.toNat) (fun hn hx => by
        obtain ⟨hlower, hupper⟩ := hzero (BitVec.eq_of_toNat_eq hn)
        exact hx.elim hlower hupper) tail
      rw [hint, decimalText_natCast]
      obtain ⟨first, rest, htext⟩ := List.exists_cons_of_length_pos
        (l := digitsText v.toNat) (by rw [length_digitsText]; omega)
      have hfirst : first ∈ digitsText v.toNat := by
        rw [htext]
        exact List.mem_cons_self
      rw [htext, List.cons_append] at hread ⊢
      rw [dbgAtol_unsigned hspaces (isDigit_of_mem hfirst), hread]
      exact congrArg Except.ok ((BitVec.ofNat_toNat 64 v).trans (BitVec.setWidth_eq v))

/-- Every number that the debugger prints in hexadecimal, and every signed one but the smallest,
is typed back. -/
theorem printed_numbers_typed_back :
    (∀ v, TypedBack (u64ToHstr v) [chr '0', chr 'x'] v (· ∉ hexDigits)) ∧
      (∀ v : BitVec 32,
        TypedBack (u32ToHstr v) [chr '0', chr 'x'] (v.setWidth 64) (· ∉ hexDigits)) ∧
      ∀ v : BitVec 64, (BitVec.intMin 64).toInt < v.toInt →
        TypedBack (s64ToStr v) [] v
          (fun c => c ∉ decimalDigits ∧ (v = 0 → c ≠ chr 'x' ∧ c ≠ chr 'X')) := by
  refine ⟨fun v => ?_, fun v => ?_, fun v h => typedBack_signed h⟩
  · have htyped := typedBack_hex .toH64 (show 16 ≤ 20 by decide) v.isLt
    rw [BitVec.ofNat_toNat, BitVec.setWidth_eq] at htyped
    exact htyped
  · have htyped := typedBack_hex .toH32 (show 8 ≤ 20 by decide) v.isLt
    rw [BitVec.ofNat_toNat] at htyped
    exact htyped

/-- The start of the kernel, typed behind a blank and in front of the end of the line, and the
smallest number but one. -/
theorem printed_numbers_typed_back_kernel :
    (∃ text buffs', returned (u64ToHstr 0xFFFFFFFF80000000) (fun _ _ => 0) = some (text, buffs') ∧
      dbgAtol ([chr ' '] ++ [chr '0', chr 'x'] ++ text ++ [0]) = .ok 0xFFFFFFFF80000000) ∧
      ∃ text buffs', returned (s64ToStr (BitVec.intMin 64 + 1)) (fun _ _ => 0) =
          some (text, buffs') ∧
        dbgAtol ([] ++ [] ++ text ++ [0]) = .ok (BitVec.intMin 64 + 1) := by
  obtain ⟨unsigned, -, signed⟩ := printed_numbers_typed_back
  constructor
  · obtain ⟨text, buffs', hreturned, hread⟩ := unsigned 0xFFFFFFFF80000000 fun _ _ => 0
    exact ⟨text, buffs', hreturned, hread [chr ' '] [0] (by decide) (by decide) (by decide)⟩
  · obtain ⟨text, buffs', hreturned, hread⟩ :=
      signed (BitVec.intMin 64 + 1) (by decide) fun _ _ => 0
    exact ⟨text, buffs', hreturned, hread [] [0] (by decide) (by decide) (by decide)⟩

end MidnightOS.Debug
