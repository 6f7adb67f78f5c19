import MidnightOS.Debug.Dbgio
import Mathlib.Data.Nat.Log
import Mathlib.Data.List.OfFn

/-! # Where the conversion routines store

Every store of a routine lies between 0 and 20, for every number and whatever the
buffers hold, with one exception: `u64_to_str` stores a digit in front of its
buffer when the number has only one.
-/

namespace MidnightOS.Debug

open MidnightOS.Lib

/-! ## Lists of stores -/

def InBuffer (store : Store) : Prop := 0 ≤ store.1 ∧ store.1 < 128

theorem makeStores_cons {store : Store} (h : InBuffer store) (stores : List Store)
    (buff : StrBuff) : ∃ buff', makeStores (store :: stores) buff = makeStores stores buff' := by
  unfold InBuffer at h
  exact ⟨_, by rw [makeStores, dif_pos h]⟩

/-- Stores inside the buffer that end with a NUL leave a string in it. -/
theorem makeStores_terminated {stores : List Store} {last : Int} (buff : StrBuff)
    (h : ∀ store ∈ stores ++ [(last, 0)], InBuffer store) :
    ∃ buff', makeStores (stores ++ [(last, 0)]) buff = .ok buff' ∧ 0 ∈ List.ofFn buff' := by
  induction stores generalizing buff with
  | nil =>
    have hlast : InBuffer (last, 0) := h _ (by simp)
    unfold InBuffer at hlast
    refine ⟨_, by rw [List.nil_append, makeStores, dif_pos hlast]; rfl, ?_⟩
    rw [List.mem_ofFn]
    exact ⟨_, Function.update_self _ _ _⟩
  | cons store stores ih =>
    obtain ⟨buff', hfirst⟩ := makeStores_cons (h store (by simp)) (stores ++ [(last, 0)]) buff
    rw [List.cons_append, hfirst]
    exact ih buff' fun other hother => h other (List.mem_cons_of_mem _ hother)

/-- A store outside the buffer ends the run. -/
theorem makeStores_outside {store : Store} (h : ¬InBuffer store) (stores : List Store)
    (buff : StrBuff) : makeStores (store :: stores) buff = .error .store := by
  unfold InBuffer at h
  rw [makeStores, dif_neg h]

/-- The routine fills its buffer and returns a string in it. -/
def Returns (routine : BuffM Chars) (buffs : StrBuffs) : Prop :=
  ∃ str buffs', routine buffs = .ok str buffs' ∧ 0 ∈ str

theorem convert_returns {name : StrBuffName} {stores : List Store} {last : Int}
    (h : ∀ store ∈ stores ++ [(last, 0)], InBuffer store) (buffs : StrBuffs) :
    Returns (convert name (some (stores ++ [(last, 0)]))) buffs := by
  obtain ⟨buff', hstores, hnul⟩ := makeStores_terminated (buffs name) h
  refine ⟨List.ofFn buff', Function.update buffs name buff', ?_, hnul⟩
  rw [convert, get_bind]
  simp only [hstores]
  rfl

theorem convert_outside {name : StrBuffName} {stores : List Store} {buffs : StrBuffs}
    (h : makeStores stores (buffs name) = .error .store) :
    convert name (some stores) buffs = .error .store buffs := by
  rw [convert, get_bind]
  simp only [h]
  rfl

/-! ## Hexadecimal -/

theorem hexStores_inBuffer {digits terminator : Nat} (hdigits : digits ≤ 128)
    (hterminator : terminator < 128) (v : Nat) :
    ∀ store ∈ hexStores digits terminator v, InBuffer store := by
  intro store hmem
  unfold hexStores at hmem
  rw [List.mem_append, List.mem_map, List.mem_singleton] at hmem
  unfold InBuffer
  cases hmem with
  | inl hdigit =>
    obtain ⟨i, hi, hstore⟩ := hdigit
    have : i < digits := List.mem_range.mp hi
    rw [← hstore]
    simp only
    omega
  | inr hlast =>
    rw [hlast]
    simp only
    omega

theorem u64ToHstr_returns (v : BitVec 64) (buffs : StrBuffs) : Returns (u64ToHstr v) buffs :=
  convert_returns (hexStores_inBuffer (by omega) (by omega) _) buffs

theorem u32ToHstr_returns (v : BitVec 32) (buffs : StrBuffs) : Returns (u32ToHstr v) buffs :=
  convert_returns (hexStores_inBuffer (by omega) (by omega) _) buffs

theorem u8ToHstr_returns (v : BitVec 8) (buffs : StrBuffs) : Returns (u8ToHstr v) buffs :=
  convert_returns (hexStores_inBuffer (by omega) (by omega) _) buffs

/-! ## Decimal -/

theorem log_lt_digitFuel (v : BitVec 64) : Nat.log 10 v.toNat < digitFuel := by
  have hlt : v.toNat < 2 ^ 64 := v.isLt
  unfold digitFuel
  by_cases hzero : v.toNat = 0
  · simp [hzero]
  · exact Nat.log_lt_of_lt_pow hzero (by omega)

theorem log_of_div_pos {n : Nat} (h : n / 10 > 0) : Nat.log 10 n = Nat.log 10 (n / 10) + 1 :=
  Nat.log_of_one_lt_of_le (by omega) (by omega)

theorem log_of_div_eq_zero {n : Nat} (h : ¬n / 10 > 0) : Nat.log 10 n = 0 :=
  Nat.log_of_lt (by omega)

/-- The loop counts the digits after the first one. -/
theorem sizeLoop_eq {fuel n : Nat} (length : Nat) (h : Nat.log 10 n < fuel) :
    sizeLoop fuel n length = some (length + Nat.log 10 n) := by
  induction fuel generalizing n length with
  | zero => omega
  | succ fuel ih =>
    rw [sizeLoop]
    by_cases hpos : n / 10 > 0
    · have hlog := log_of_div_pos hpos
      rw [if_pos hpos, ih (length + 1) (by omega), hlog]
      congr 1
      omega
    · rw [if_neg hpos, log_of_div_eq_zero hpos]
      rfl

/-- What a digit loop leaves to be stored: digits from `first` on, then the NUL. -/
def DigitsFrom (first last : Int) (stores : List Store) : Prop :=
  ∃ digits : List Store, stores = digits ++ [(last, 0)] ∧
    ∀ store ∈ digits, first ≤ store.1 ∧ store.1 < last

theorem DigitsFrom.cons {first last : Int} {stores : List Store} {store : Store}
    (h : DigitsFrom first last stores) (hfirst : first ≤ store.1) (hlast : store.1 < last) :
    DigitsFrom first last (store :: stores) := by
  obtain ⟨digits, heq, hin⟩ := h
  refine ⟨store :: digits, by rw [heq, List.cons_append], ?_⟩
  intro other hother
  cases hother with
  | head => exact ⟨hfirst, hlast⟩
  | tail _ hother => exact hin other hother

theorem DigitsFrom.returns {last : Int} {stores : List Store} (h : DigitsFrom 0 last stores)
    (hpos : 0 ≤ last) (hlast : last < 128) (name : StrBuffName) (buffs : StrBuffs) :
    Returns (convert name (some stores)) buffs := by
  obtain ⟨digits, heq, hin⟩ := h
  rw [heq]
  apply convert_returns
  intro store hmem
  rw [List.mem_append, List.mem_singleton] at hmem
  unfold InBuffer
  cases hmem with
  | inl hdigit =>
    have := hin store hdigit
    omega
  | inr hnul =>
    rw [hnul]
    exact ⟨hpos, hlast⟩

/-- With two digits or more, the `do .. while` loop ends at the second digit, and the store
after it is the one of the first digit. -/
theorem u64Loop_digits (length fuel v index : Nat) (hfuel : Nat.log 10 v ≤ fuel)
    (htwo : 0 < Nat.log 10 v) (hindex : index + Nat.log 10 v = length) :
    ∃ stores, u64Loop length fuel v index = some stores ∧
      DigitsFrom 0 ((length : Int) + 1) stores := by
  induction fuel generalizing v index with
  | zero => omega
  | succ fuel ih =>
    have hv : v / 10 > 0 := by
      by_contra hsmall
      rw [log_of_div_eq_zero hsmall] at htwo
      omega
    have hlog := log_of_div_pos hv
    unfold u64Loop
    by_cases hmore : v / 10 / 10 > 0
    · -- another round for the digits in front
      have hnext := log_of_div_pos hmore
      obtain ⟨stores, hloop, hdigits⟩ := ih (v / 10) (index + 1) (by omega)
        (by omega) (by omega)
      refine ⟨_, by rw [if_pos hmore, hloop]; rfl, hdigits.cons ?_ ?_⟩
      · simp only
        omega
      · simp only
        omega
    · -- the last round stores a digit, and the store behind the loop the first one
      have hnext := log_of_div_eq_zero hmore
      refine ⟨_, by rw [if_neg hmore], ?_⟩
      have hnul : DigitsFrom 0 ((length : Int) + 1) [((length : Int) + 1, 0)] :=
        ⟨[], rfl, fun _ hmem => by cases hmem⟩
      refine (hnul.cons ?_ ?_).cons ?_ ?_
      all_goals
        simp only
        omega

theorem u64ToStr_returns {v : BitVec 64} (h : 10 ≤ v.toNat) (buffs : StrBuffs) :
    Returns (u64ToStr v) buffs := by
  have hlog := log_lt_digitFuel v
  have htwo : 0 < Nat.log 10 v.toNat := Nat.log_pos (by omega) h
  obtain ⟨stores, hloop, hdigits⟩ := u64Loop_digits (Nat.log 10 v.toNat) digitFuel
    v.toNat 0 (by omega) htwo (by omega)
  have hstores : u64Stores v = some stores := by
    unfold u64Stores
    rw [sizeLoop_eq 0 hlog, Option.bind_eq_bind, Option.bind_some, Nat.zero_add, hloop]
  rw [u64ToStr, hstores]
  unfold digitFuel at hlog
  exact hdigits.returns (by omega) (by omega) _ _

/-- A single digit is stored twice, the second time in front of the buffer. -/
theorem u64Stores_digit {v : BitVec 64} (h : v.toNat < 10) :
    u64Stores v = some [(0, decimalDigit (BitVec.ofNat 8 (v.toNat % 10))),
      (-1, decimalDigit 0), (1, 0)] := by
  have hdiv : v.toNat / 10 = 0 := by omega
  simp [u64Stores, digitFuel, sizeLoop, u64Loop, hdiv]

theorem u64ToStr_digit {v : BitVec 64} (h : v.toNat < 10) (buffs : StrBuffs) :
    u64ToStr v buffs = .error .store buffs := by
  have hin : InBuffer (0, decimalDigit (BitVec.ofNat 8 (v.toNat % 10))) := by simp [InBuffer]
  obtain ⟨buff', hfirst⟩ := makeStores_cons hin [(-1, decimalDigit 0), (1, 0)] (buffs .toU64)
  rw [u64ToStr, u64Stores_digit h]
  apply convert_outside
  rw [hfirst]
  exact makeStores_outside (by simp [InBuffer]) _ _

theorem s64Loop_digits (first length fuel : Nat) (v : Int) (index : Nat)
    (hfuel : Nat.log 10 v.toNat < fuel) (hindex : index + Nat.log 10 v.toNat ≤ length) :
    ∃ stores, s64Loop first length fuel v index = some stores ∧
      DigitsFrom 0 ((first : Int) + length + 1) stores := by
  induction fuel generalizing v index with
  | zero => omega
  | succ fuel ih =>
    unfold s64Loop
    by_cases hmore : v.tdiv 10 > 0
    · -- only a positive number has another digit in front
      have hpos : 0 < v := by
        by_contra hneg
        have : 0 ≤ (-v).tdiv 10 := Int.tdiv_nonneg (by omega) (by omega)
        rw [Int.neg_tdiv] at this
        omega
      obtain ⟨n, rfl⟩ := Int.eq_ofNat_of_zero_le (Int.le_of_lt hpos)
      have hdiv : ((n : Int).tdiv 10) = ((n / 10 : Nat) : Int) := (Int.ofNat_tdiv n 10).symm
      have hlog := log_of_div_pos (n := n) (by omega)
      rw [Int.toNat_natCast] at hfuel hindex
      obtain ⟨stores, hloop, hdigits⟩ := ih (n / 10 : Nat) (index + 1)
        (by rw [Int.toNat_natCast]; omega) (by rw [Int.toNat_natCast]; omega)
      refine ⟨_, by rw [if_pos hmore, hdiv, hloop]; rfl, hdigits.cons ?_ ?_⟩
      all_goals
        simp only
        omega
    · refine ⟨_, by rw [if_neg hmore], ?_⟩
      have hnul : DigitsFrom 0 ((first : Int) + length + 1) [((first : Int) + length + 1, 0)] :=
        ⟨[], rfl, fun _ hmem => by cases hmem⟩
      refine hnul.cons ?_ ?_
      all_goals
        simp only
        omega

/-- The wrapped negation of the smallest number is negative: it has no digits to divide off. -/
theorem log_toInt_le (v : BitVec 64) : Nat.log 10 v.toInt.toNat ≤ Nat.log 10 v.toNat := by
  apply Nat.log_mono_right
  have := v.isLt
  rw [BitVec.toInt_eq_toNat_cond]
  split
  · omega
  · omega

theorem s64ToStr_returns (v : BitVec 64) (buffs : StrBuffs) : Returns (s64ToStr v) buffs := by
  unfold s64ToStr s64Stores
  by_cases hneg : v.toInt < 0
  · have hlog := log_lt_digitFuel (-v)
    have hint := log_toInt_le (-v)
    obtain ⟨stores, hloop, hdigits⟩ := s64Loop_digits 1 (Nat.log 10 (-v).toNat)
      digitFuel (-v).toInt 0 (by omega) (by omega)
    rw [if_pos hneg]
    simp only [sizeLoop_eq 0 hlog, Nat.zero_add, Option.bind_eq_bind, Option.bind_some, hloop,
      Option.map_some]
    unfold digitFuel at hlog
    have hminus : DigitsFrom 0 _ ((0, chr '-') :: stores) :=
      hdigits.cons (Int.le_refl 0) (by simp only; omega)
    exact hminus.returns (by omega) (by omega) _ _
  · have hlog := log_lt_digitFuel v
    have hint := log_toInt_le v
    obtain ⟨stores, hloop, hdigits⟩ := s64Loop_digits 0 (Nat.log 10 v.toNat) digitFuel
      v.toInt 0 (by omega) (by omega)
    rw [if_neg hneg, sizeLoop_eq 0 hlog, Nat.zero_add, Option.bind_eq_bind, Option.bind_some, hloop]
    unfold digitFuel at hlog
    exact hdigits.returns (by omega) (by omega) _ _

end MidnightOS.Debug
