import Mathlib.Algebra.Group.Nat.Defs
import Mathlib.Tactic.Common

/-! # Cyclic redundancy checks

A reflected shift register with polynomial `p` takes a message bit by bit: it moves
down one place, and adds `p` if the bit that fell out differs from the message bit.
All of it is linear over exclusive or.  Two consequences are what checksums are used
with: a register can take several bits at once from a table
(`feed_eq_shift_xor`), and messages that differ in a window no longer than the
register leave it in different states (`feed_ne_of_burst`).
-/

namespace MidnightOS.Lib

variable {w : Nat}

/-- The register takes one bit. -/
def feedBit (p x : BitVec w) (b : Bool) : BitVec w :=
  if x.getLsbD 0 ^^ b then (x >>> 1) ^^^ p else x >>> 1

/-- The register takes the bits of a message, first to last. -/
def feed (p x : BitVec w) (bits : List Bool) : BitVec w := bits.foldl (feedBit p) x

/-- The low `k` bits of a word, least significant first. -/
def lowBits (k : Nat) (x : BitVec w) : List Bool := (List.range k).map x.getLsbD

@[simp] theorem feed_nil (p x : BitVec w) : feed p x [] = x := rfl

@[simp] theorem feed_cons (p x : BitVec w) (b : Bool) (bits : List Bool) :
    feed p x (b :: bits) = feed p (feedBit p x b) bits := rfl

theorem feed_append (p x : BitVec w) (bits bits' : List Bool) :
    feed p x (bits ++ bits') = feed p (feed p x bits) bits' := List.foldl_append

@[simp] theorem length_lowBits (k : Nat) (x : BitVec w) : (lowBits k x).length = k := by
  simp [lowBits]

theorem lowBits_succ (k : Nat) (x : BitVec w) :
    lowBits (k + 1) x = x.getLsbD 0 :: lowBits k (x >>> 1) := by
  simp only [lowBits, List.range_succ_eq_map, List.map_cons, List.map_map]
  congr 1
  apply List.map_congr_left
  intro i _
  simp [BitVec.getLsbD_ushiftRight, Nat.add_comm]

theorem zipWith_lowBits {w' : Nat} (k : Nat) (x : BitVec w) (y : BitVec w') :
    List.zipWith Bool.xor (lowBits k x) (lowBits k y) =
      (List.range k).map fun i => x.getLsbD i ^^ y.getLsbD i := by
  simp [lowBits, List.zipWith_map]

/-! ## Linearity -/

theorem feedBit_xor (p x y : BitVec w) (b c : Bool) :
    feedBit p (x ^^^ y) (b ^^ c) = feedBit p x b ^^^ feedBit p y c := by
  have cancel : x >>> 1 ^^^ p ^^^ (y >>> 1 ^^^ p) = x >>> 1 ^^^ y >>> 1 := by
    rw [BitVec.xor_assoc, BitVec.xor_comm p, BitVec.xor_assoc (y >>> 1), BitVec.xor_self,
      BitVec.xor_zero]
  have fell : ((x ^^^ y).getLsbD 0 ^^ (b ^^ c)) = ((x.getLsbD 0 ^^ b) ^^ (y.getLsbD 0 ^^ c)) := by
    rw [BitVec.getLsbD_xor, Bool.xor_assoc, Bool.xor_left_comm (y.getLsbD 0), Bool.xor_assoc]
  rw [feedBit, feedBit, feedBit, fell, BitVec.ushiftRight_xor_distrib]
  cases hx : (x.getLsbD 0 ^^ b) with
  | false =>
    cases hy : (y.getLsbD 0 ^^ c) with
    | false => simp
    | true => simp [BitVec.xor_assoc]
  | true =>
    cases hy : (y.getLsbD 0 ^^ c) with
    | false => simp only [Bool.xor_false, if_true, Bool.false_eq_true, if_false,
        BitVec.xor_assoc, BitVec.xor_comm p]
    | true => simp [cancel]

/-- The register after the difference of two messages is the difference of the two
    registers. -/
theorem feed_xor (p x y : BitVec w) {bits bits' : List Bool} (h : bits.length = bits'.length) :
    feed p (x ^^^ y) (List.zipWith Bool.xor bits bits') = feed p x bits ^^^ feed p y bits' := by
  induction bits generalizing x y bits' with
  | nil =>
    obtain rfl := List.eq_nil_of_length_eq_zero h.symm
    rfl
  | cons b bits ih =>
    cases bits' with
    | nil => cases h
    | cons b' bits' =>
      rw [List.zipWith_cons_cons, feed_cons, feedBit_xor, ih _ _ (Nat.succ.inj h), feed_cons,
        feed_cons]

/-! ## Several bits at once -/

/-- A register that takes its own low bits moves down without adding `p`. -/
theorem feed_lowBits (p x : BitVec w) (k : Nat) : feed p x (lowBits k x) = x >>> k := by
  induction k generalizing x with
  | zero => simp [lowBits]
  | succ k ih =>
    have moved : feedBit p x (x.getLsbD 0) = x >>> 1 := by simp [feedBit]
    rw [lowBits_succ, feed_cons, moved, ih, ← BitVec.shiftRight_add, Nat.add_comm]

theorem zipWith_xor_cancel {xs ys : List Bool} (h : xs.length = ys.length) :
    List.zipWith Bool.xor xs (List.zipWith Bool.xor xs ys) = ys := by
  induction xs generalizing ys with
  | nil => exact (List.eq_nil_of_length_eq_zero h.symm).symm
  | cons x xs ih =>
    cases ys with
    | nil => cases h
    | cons y ys => simp [ih (Nat.succ.inj h)]

/-- Some bits at once: the register moves down, and what is added depends only on the
    bits that fall out and the message bits. -/
theorem feed_eq_shift_xor (p x : BitVec w) (bits : List Bool) :
    feed p x bits = (x >>> bits.length) ^^^
      feed p 0 (List.zipWith Bool.xor (lowBits bits.length x) bits) := by
  have split : feed p (x ^^^ 0) (List.zipWith Bool.xor (lowBits bits.length x)
      (List.zipWith Bool.xor (lowBits bits.length x) bits)) =
      feed p x (lowBits bits.length x) ^^^
        feed p 0 (List.zipWith Bool.xor (lowBits bits.length x) bits) :=
    feed_xor p x 0 (by simp)
  rw [zipWith_xor_cancel (by simp), feed_lowBits] at split
  simpa using split

/-! ## Error detection -/

section Detection

variable {p : BitVec w}

/-- A register that does not add `p` remembers the bit it took. -/
theorem feedBit_small (hp : p.msb = true) {x : BitVec w} {b : Bool}
    (h : (feedBit p x b).msb = false) : x.getLsbD 0 = b ∧ x >>> 1 = feedBit p x b := by
  have positive : 0 < w := by
    cases w with
    | zero => simp [BitVec.of_length_zero] at hp
    | succ n => exact Nat.succ_pos n
  have top : (x >>> 1).msb = false := by
    rw [BitVec.msb_eq_getLsbD_last, BitVec.getLsbD_ushiftRight]
    exact BitVec.getLsbD_of_ge _ _ (by omega)
  by_cases fell : (x.getLsbD 0 ^^ b) = true
  · rw [feedBit, if_pos fell, BitVec.msb_xor, top, hp] at h
    cases h
  · rw [feedBit, if_neg fell]
    refine ⟨?_, rfl⟩
    cases hx : x.getLsbD 0 <;> cases b <;> simp_all

/-- The number whose binary digits are `bits`, least significant first. -/
def wordOf : List Bool → Nat
  | [] => 0
  | b :: bits => b.toNat + 2 * wordOf bits

theorem wordOf_lt (bits : List Bool) : wordOf bits < 2 ^ bits.length := by
  induction bits with
  | nil => exact Nat.one_pos
  | cons b bits ih =>
    have := Bool.toNat_lt b
    simp only [wordOf, List.length_cons, Nat.pow_succ]
    omega

theorem wordOf_eq_zero {bits : List Bool} (h : wordOf bits = 0) : ∀ b ∈ bits, b = false := by
  induction bits with
  | nil => simp
  | cons b bits ih =>
    simp only [wordOf] at h
    have head : b = false := by
      cases b with
      | false => rfl
      | true => simp at h
    have tail := ih (by omega)
    simpa [head] using tail

/-- Only one message of at most `w` bits leads from a register to zero: the one in it. -/
theorem toNat_of_feed_eq_zero (hp : p.msb = true) {x : BitVec w} {bits : List Bool}
    (short : bits.length ≤ w) (h : feed p x bits = 0) : x.toNat = wordOf bits := by
  induction bits generalizing x with
  | nil =>
    have : x = 0 := h
    simp [this, wordOf]
  | cons b bits ih =>
    have small := wordOf_lt bits
    rw [List.length_cons] at short
    have next := ih (by omega) h
    -- the register after the first bit has its top bit clear, so `p` was not added
    have bound : 2 ^ bits.length ≤ 2 ^ (w - 1) := Nat.pow_le_pow_right (by omega) (by omega)
    have clear : (feedBit p x b).msb = false := by
      rw [BitVec.msb_eq_false_iff_two_mul_lt, next]
      have : 2 ^ w = 2 * 2 ^ (w - 1) := by
        rw [← Nat.pow_succ']
        congr 1
        omega
      omega
    obtain ⟨low, shifted⟩ := feedBit_small hp clear
    have quotient : x.toNat / 2 = wordOf bits := by
      rw [← next, ← shifted, BitVec.toNat_ushiftRight, Nat.shiftRight_eq_div_pow, Nat.pow_one]
    have remainder : x.toNat % 2 = b.toNat := by
      rw [← low, BitVec.getLsbD, Nat.testBit_zero]
      cases Nat.mod_two_eq_zero_or_one x.toNat with
      | inl zero => simp [zero]
      | inr one => simp [one]
    rw [wordOf, ← quotient, ← remainder]
    omega

theorem feed_zeros_ne_zero (hp : p.msb = true) {x : BitVec w} (hx : x ≠ 0) (bits : List Bool)
    (zeros : ∀ b ∈ bits, b = false) : feed p x bits ≠ 0 := by
  induction bits generalizing x with
  | nil => exact hx
  | cons b bits ih =>
    rw [List.forall_mem_cons] at zeros
    obtain ⟨rfl, zeros⟩ := zeros
    apply ih _ zeros
    intro hzero
    obtain ⟨low, shifted⟩ := feedBit_small hp (x := x) (b := false) (by rw [hzero]; simp)
    apply hx
    apply BitVec.eq_of_getLsbD_eq
    intro i _
    cases i with
    | zero => simpa using low
    | succ i =>
      have bit : (x >>> 1).getLsbD i = false := by rw [shifted, hzero]; simp
      simpa [BitVec.getLsbD_ushiftRight, Nat.add_comm] using bit

/-- Messages that differ in a window of at most `w` bits, and only there, leave the
    register in different states. -/
theorem feed_ne_of_burst (hp : p.msb = true) (x : BitVec w) {before window window' : List Bool}
    (behind : List Bool) (same : window.length = window'.length) (short : window.length ≤ w)
    (differ : window ≠ window') :
    feed p x (before ++ window ++ behind) ≠ feed p x (before ++ window' ++ behind) := by
  simp only [feed_append]
  generalize feed p x before = y
  -- the difference of the two registers after the window
  have nonzero : feed p y window ^^^ feed p y window' ≠ 0 := by
    rw [← feed_xor p y y same, BitVec.xor_self]
    intro hzero
    have word := toNat_of_feed_eq_zero hp (by simp [← same, short]) hzero
    have zeros := wordOf_eq_zero word.symm
    apply differ
    apply List.ext_getElem same
    intro i hi hi'
    have bit := zeros _ (List.getElem_mem (show i < (List.zipWith Bool.xor window window').length by
      rw [List.length_zipWith]
      exact Nat.lt_min.mpr ⟨hi, hi'⟩))
    rw [List.getElem_zipWith] at bit
    cases hb : window[i] <;> cases hb' : window'[i] <;> simp_all
  intro heq
  refine feed_zeros_ne_zero hp nonzero (List.zipWith Bool.xor behind behind) ?_ ?_
  · intro b hb
    rw [List.zipWith_self, List.mem_map] at hb
    obtain ⟨c, _, rfl⟩ := hb
    exact Bool.xor_self c
  · rw [feed_xor p _ _ rfl, heq, BitVec.xor_self]
    rfl

end Detection

end MidnightOS.Lib
