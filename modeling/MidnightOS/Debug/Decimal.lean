import MidnightOS.Debug.PlainText
import Mathlib.Data.Nat.Digits.Defs

/-! # The numbers that are printed

The routines store their characters from the last one to the first.  The decimal
routines print the canonical decimal number, but for a single digit (`u64_to_str`)
and for the smallest number of 64 bits (`s64_to_str`).
-/

namespace MidnightOS.Debug

open MidnightOS.Lib

/-! ## Text in a buffer -/

/-- The stores of a text, from its last character to its first, which is at `first`. -/
def backwards : (first : Nat) → List Byte → List Store
  | _, [] => []
  | first, c :: text => backwards (first + 1) text ++ [((first : Int), c)]

theorem backwards_concat (first : Nat) (text : List Byte) (c : Byte) :
    backwards first (text ++ [c]) =
      (((first + text.length : Nat) : Int), c) :: backwards first text := by
  induction text generalizing first with
  | nil => rfl
  | cons c' text ih =>
    rw [List.cons_append, backwards, ih, List.cons_append, backwards, List.length_cons,
      Nat.add_right_comm first 1, Nat.add_assoc]

theorem mem_backwards {first : Nat} {text : List Byte} {store : Store}
    (h : store ∈ backwards first text) :
    (first : Int) ≤ store.1 ∧ store.1 < (first + text.length : Nat) := by
  induction text generalizing first with
  | nil => cases h
  | cons c text ih =>
    rw [backwards, List.mem_append, List.mem_singleton] at h
    rw [List.length_cons]
    cases h with
    | inl hrest =>
      have := ih hrest
      omega
    | inr hfirst =>
      rw [hfirst]
      simp only
      omega

theorem makeStores_append (stores stores' : List Store) (buff : StrBuff) :
    makeStores (stores ++ stores') buff = makeStores stores buff >>= makeStores stores' := by
  induction stores generalizing buff with
  | nil => rfl
  | cons store stores ih =>
    rw [List.cons_append, makeStores, makeStores]
    by_cases h : 0 ≤ store.1 ∧ store.1 < 128
    · rw [dif_pos h, dif_pos h]
      exact ih _
    · rw [dif_neg h, dif_neg h]
      rfl

/-- The buffer with a text in it. -/
def place (first : Nat) (text : List Byte) (buff : StrBuff) : StrBuff := fun cell =>
  if first ≤ cell.val then text.getD (cell.val - first) (buff cell) else buff cell

theorem place_nil (first : Nat) (buff : StrBuff) : place first [] buff = buff := by
  funext cell
  simp [place]

theorem place_cons {first : Nat} (hfirst : first < 128) (c : Byte) (text : List Byte)
    (buff : StrBuff) :
    place first (c :: text) buff =
      Function.update (place (first + 1) text buff) ⟨first, hfirst⟩ c := by
  funext cell
  by_cases h : cell = ⟨first, hfirst⟩
  · subst h
    simp [place]
  · have hne : cell.val ≠ first := fun heq => h (Fin.ext heq)
    rw [Function.update_of_ne h]
    unfold place
    by_cases hle : first ≤ cell.val
    · -- a cell behind the first one
      have hsub : cell.val - first = cell.val - (first + 1) + 1 := by omega
      rw [if_pos hle, if_pos (by omega), hsub, List.getD_cons_succ]
    · rw [if_neg hle, if_neg (by omega)]

theorem makeStores_one {index : Nat} (h : index < 128) (c : Byte) (buff : StrBuff) :
    makeStores [((index : Int), c)] buff = .ok (Function.update buff ⟨index, h⟩ c) := by
  rw [makeStores, dif_pos (by omega)]
  rfl

theorem makeStores_backwards {first : Nat} {text : List Byte} (h : first + text.length ≤ 128)
    (buff : StrBuff) : makeStores (backwards first text) buff = .ok (place first text buff) := by
  induction text generalizing first with
  | nil =>
    rw [place_nil]
    rfl
  | cons c text ih =>
    rw [List.length_cons] at h
    have hfirst : first < 128 := by omega
    rw [backwards, makeStores_append, ih (by omega), ok_bind, makeStores_one hfirst,
      place_cons hfirst]

/-- A text that is placed in front of a NUL is the text of the buffer. -/
theorem textOf_place {text : List Byte} (hnul : 0 ∉ text) (hroom : text.length < 128)
    (buff : StrBuff) :
    textOf (List.ofFn (Function.update (place 0 text buff) ⟨text.length, hroom⟩ 0)) = text := by
  have htext : textOf (text ++ [0]) = text := textOf_append_nul hnul
  refine Eq.trans ?_ htext
  apply textOf_eq_of_cells (k := text.length)
  · intro i hi
    rw [List.getElem?_ofFn, dif_pos (by omega)]
    by_cases hlast : i = text.length
    · subst i
      rw [Function.update_self, List.getElem?_concat_length]
    · have hne : (⟨i, by omega⟩ : Fin 128) ≠ ⟨text.length, hroom⟩ :=
        fun heq => hlast (Fin.mk.inj heq)
      have hin : i < text.length := by omega
      rw [Function.update_of_ne hne, List.getElem?_append_left hin]
      simp [place, hin]
  · rw [List.getElem?_ofFn, dif_pos hroom, Function.update_self]

/-- The stores of a routine leave this text in its buffer, whatever it held before, all of them
in the first 21 cells. -/
structure Prints (routine : BuffM Chars) (stores : Option (List Store)) (text : List Byte) :
    Prop where
  inside : ∃ list, stores = some list ∧ ∀ store ∈ list, 0 ≤ store.1 ∧ store.1 ≤ 20
  returns : ∀ buffs, ∃ buffs', returned routine buffs = some (text, buffs')

theorem returned_convert {name : StrBuffName} {stores : List Store} {buffs : StrBuffs}
    {buff : StrBuff} (h : makeStores stores (buffs name) = .ok buff) (hnul : 0 ∈ List.ofFn buff) :
    returned (convert name (some stores)) buffs =
      some (textOf (List.ofFn buff), Function.update buffs name buff) := by
  have hconvert : convert name (some stores) buffs =
      .ok (List.ofFn buff) (Function.update buffs name buff) := by
    rw [convert, get_bind]
    simp only [h]
    rfl
  rw [returned, hconvert]
  exact if_pos hnul

/-- Stores that place a text, and its NUL behind them. -/
theorem prints_of_place (name : StrBuffName) {stores : List Store} {text : List Byte}
    (hin : ∀ store ∈ stores, 0 ≤ store.1 ∧ store.1 ≤ 20)
    (hstores : ∀ buff, makeStores stores buff = .ok (place 0 text buff)) (hnul : 0 ∉ text)
    (hlength : text.length ≤ 20) :
    let all := some (stores ++ [((text.length : Int), 0)])
    Prints (convert name all) all text := by
  refine ⟨⟨_, rfl, fun store hmem => ?_⟩, fun buffs => ?_⟩
  · rw [List.mem_append, List.mem_singleton] at hmem
    cases hmem with
    | inl hchar => exact hin store hchar
    | inr hlast =>
      rw [hlast]
      simp only
      omega
  · have hroom : text.length < 128 := by omega
    have hrun : makeStores (stores ++ [((text.length : Int), 0)]) (buffs name) =
        .ok (Function.update (place 0 text (buffs name)) ⟨text.length, hroom⟩ 0) := by
      rw [makeStores_append, hstores, ok_bind, makeStores_one hroom]
    have hterminated : (0 : Byte) ∈
        List.ofFn (Function.update (place 0 text (buffs name)) ⟨text.length, hroom⟩ 0) := by
      rw [List.mem_ofFn]
      exact ⟨_, Function.update_self _ _ _⟩
    have hreturned := returned_convert hrun hterminated
    rw [textOf_place hnul hroom] at hreturned
    exact ⟨_, hreturned⟩

/-- A text of at most twenty characters, stored backwards. -/
theorem prints_backwards (name : StrBuffName) {text : List Byte} (hnul : 0 ∉ text)
    (hlength : text.length ≤ 20) :
    let all := some (backwards 0 text ++ [((text.length : Int), 0)])
    Prints (convert name all) all text := by
  apply prints_of_place name ?_ (fun buff => makeStores_backwards (by omega) buff) hnul hlength
  intro store hmem
  have := mem_backwards hmem
  omega

/-! ## Decimal digits -/

/-- The canonical decimal representation: a sign if there is one to write, no leading zeros. -/
def decimalText (n : Int) : List Byte := (toString n).toList.map chr

/-- The digits of a number. -/
def digitsText (n : Nat) : List Byte := (Nat.toDigits 10 n).map chr

theorem decimalText_natCast (n : Nat) : decimalText n = digitsText n := by
  simp [decimalText, digitsText, Int.repr_eq_if]

theorem decimalText_neg {n : Nat} (h : 0 < n) :
    decimalText (-(n : Int)) = chr '-' :: digitsText n := by
  have hne : n ≠ 0 := by omega
  simp [decimalText, digitsText, Int.repr_eq_if, hne]

theorem chr_digitChar {d : Nat} (h : d < 10) :
    chr (Nat.digitChar d) = decimalDigit (BitVec.ofNat 8 d) := by
  have hall : ∀ d < 10, chr (Nat.digitChar d) = decimalDigit (BitVec.ofNat 8 d) := by decide
  exact hall d h

theorem digitsText_of_lt {n : Nat} (h : n < 10) :
    digitsText n = [decimalDigit (BitVec.ofNat 8 (n % 10))] := by
  rw [digitsText, Nat.toDigits_of_lt_base h, List.map_singleton, chr_digitChar h,
    Nat.mod_eq_of_lt h]

theorem digitsText_of_ge {n : Nat} (h : 10 ≤ n) :
    digitsText n = digitsText (n / 10) ++ [decimalDigit (BitVec.ofNat 8 (n % 10))] := by
  rw [digitsText, Nat.toDigits_of_base_le (by decide) h, List.map_append, List.map_singleton,
    chr_digitChar (Nat.mod_lt n (by decide))]
  rfl

theorem length_digitsText (n : Nat) : (digitsText n).length = Nat.log 10 n + 1 := by
  induction n using Nat.strongRecOn with
  | ind n ih =>
    by_cases h : n < 10
    · rw [digitsText_of_lt h, Nat.log_of_lt h]
      rfl
    · have hpos : n / 10 > 0 := by omega
      rw [digitsText_of_ge (by omega), List.length_append, ih (n / 10) (by omega),
        log_of_div_pos hpos]
      rfl

theorem zero_notMem_digitsText (n : Nat) : 0 ∉ digitsText n := by
  induction n using Nat.strongRecOn with
  | ind n ih =>
    have hdigit : ∀ d < 10, (0 : Byte) ≠ decimalDigit (BitVec.ofNat 8 d) := by decide
    have hlast := hdigit (n % 10) (Nat.mod_lt n (by decide))
    by_cases h : n < 10
    · rw [digitsText_of_lt h, List.mem_singleton]
      exact hlast
    · rw [digitsText_of_ge (by omega), List.mem_append, List.mem_singleton, not_or]
      exact ⟨ih (n / 10) (by omega), hlast⟩

/-! ## Unsigned numbers -/

/-- With two digits or more, the loop and the store behind it write the number backwards. -/
theorem u64Loop_eq {length fuel v index : Nat} (hfuel : Nat.log 10 v ≤ fuel) (hv : 10 ≤ v)
    (hindex : index + Nat.log 10 v = length) :
    u64Loop length fuel v index =
      some (backwards 0 (digitsText v) ++ [((length : Int) + 1, 0)]) := by
  induction fuel generalizing v index with
  | zero =>
    have : 0 < Nat.log 10 v := Nat.log_pos (by decide) hv
    omega
  | succ fuel ih =>
    have hlog := log_of_div_pos (n := v) (by omega)
    -- the last digit is stored at its place
    have hplace : ((length : Int) - index) = ((0 + (digitsText (v / 10)).length : Nat) : Int) := by
      rw [length_digitsText]
      omega
    rw [u64Loop, digitsText_of_ge hv, backwards_concat, hplace]
    by_cases hmore : v / 10 / 10 > 0
    · rw [if_pos hmore, ih (by omega) (by omega) (by omega)]
      rfl
    · -- the digit behind the loop is the first one
      have hzero := log_of_div_eq_zero hmore
      have hindex' : ((length : Int) - (index + 1 : Nat)) = (0 : Nat) := by omega
      rw [if_neg hmore, hindex', digitsText_of_lt (by omega)]
      rfl

theorem u64Stores_eq {v : BitVec 64} (h : 10 ≤ v.toNat) :
    u64Stores v = some (backwards 0 (digitsText v.toNat) ++
      [(((digitsText v.toNat).length : Int), 0)]) := by
  have hlog := log_lt_digitFuel v
  rw [u64Stores, sizeLoop_eq 0 hlog, Option.bind_eq_bind, Option.bind_some, Nat.zero_add,
    u64Loop_eq (by omega) h (by omega), length_digitsText]
  rfl

/-- The digit behind the loop is stored in front of the buffer. -/
theorem not_prints_digit {v : BitVec 64} (h : v.toNat < 10) :
    ¬Prints (u64ToStr v) (u64Stores v) (decimalText v.toNat) := by
  intro hprints
  obtain ⟨list, hstores, hin⟩ := hprints.inside
  rw [u64Stores_digit h] at hstores
  cases hstores
  have hfront := hin (-1, decimalDigit 0) (by simp)
  omega

/-- `u64_to_str` prints the numbers with two digits or more. -/
theorem u64ToStr_prints_iff (v : BitVec 64) :
    Prints (u64ToStr v) (u64Stores v) (decimalText v.toNat) ↔ 10 ≤ v.toNat := by
  constructor
  · intro h
    by_contra hdigit
    exact not_prints_digit (by omega) h
  · intro h
    have hlog := log_lt_digitFuel v
    have hlength : (digitsText v.toNat).length ≤ 20 := by
      rw [length_digitsText]
      exact hlog
    rw [u64ToStr, u64Stores_eq h, decimalText_natCast]
    exact prints_backwards .toU64 (zero_notMem_digitsText _) hlength

/-- The number 7 is stored twice. -/
theorem single_digit_not_printed :
    ¬∀ v : BitVec 64, Prints (u64ToStr v) (u64Stores v) (decimalText v.toNat) := by
  intro h
  exact not_prints_digit (by decide) (h 7)

/-! ## Signed numbers -/

theorem s64Loop_eq {first length fuel n index : Nat} (hfuel : Nat.log 10 n < fuel)
    (hindex : index + Nat.log 10 n = length) :
    s64Loop first length fuel n index =
      some (backwards first (digitsText n) ++ [((first : Int) + length + 1, 0)]) := by
  induction fuel generalizing n index with
  | zero => omega
  | succ fuel ih =>
    have hdiv : ((n : Int).tdiv 10) = ((n / 10 : Nat) : Int) := (Int.ofNat_tdiv n 10).symm
    have hmod : BitVec.ofInt 8 ((n : Int).tmod 10) = BitVec.ofNat 8 (n % 10) := rfl
    rw [s64Loop, hdiv, hmod]
    by_cases hmore : n / 10 > 0
    · have hlog := log_of_div_pos hmore
      -- the last digit is stored at its place
      have hplace : ((first : Int) + length - index) =
          ((first + (digitsText (n / 10)).length : Nat) : Int) := by
        rw [length_digitsText]
        omega
      rw [if_pos (by omega), ih (by omega) (by omega), hplace,
        digitsText_of_ge (n := n) (by omega), backwards_concat]
      rfl
    · have hlog := log_of_div_eq_zero hmore
      have hplace : ((first : Int) + length - index) = first := by omega
      rw [if_neg (by omega), hplace, digitsText_of_lt (by omega)]
      rfl

/-- The sign is stored first, the digits behind it. -/
theorem makeStores_sign {c : Byte} {text : List Byte} (h : 1 + text.length ≤ 128) (buff : StrBuff) :
    makeStores ((0, c) :: backwards 1 text) buff = .ok (place 0 (c :: text) buff) := by
  have hsign := makeStores_append [((0 : Nat), c)] (backwards 1 text) buff
  rw [makeStores_one (by decide), ok_bind, makeStores_backwards h] at hsign
  refine hsign.trans (congrArg Except.ok (funext fun cell => ?_))
  rw [place_cons (by decide)]
  by_cases hcell : cell = ⟨0, by decide⟩
  · subst hcell
    simp [place]
  · have hpos : 1 ≤ cell.val := by
      have : cell.val ≠ 0 := fun heq => hcell (Fin.ext heq)
      omega
    rw [Function.update_of_ne hcell, place, if_pos hpos, Function.update_of_ne hcell, place,
      if_pos hpos]

theorem toInt_of_nonneg {v : BitVec 64} (h : 0 ≤ v.toInt) : v.toInt = (v.toNat : Int) := by
  have := v.isLt
  rw [BitVec.toInt_eq_toNat_cond] at h ⊢
  by_cases hsmall : 2 * v.toNat < 2 ^ 64
  · rw [if_pos hsmall]
  · rw [if_neg hsmall] at h
    omega

theorem s64Stores_nonneg {v : BitVec 64} (h : 0 ≤ v.toInt) :
    s64Stores v = some (backwards 0 (digitsText v.toNat) ++
      [(((digitsText v.toNat).length : Int), 0)]) := by
  have hlog := log_lt_digitFuel v
  have hint : v.toInt = (v.toNat : Int) := toInt_of_nonneg h
  rw [s64Stores, if_neg (by omega), sizeLoop_eq 0 hlog, Option.bind_eq_bind, Option.bind_some,
    Nat.zero_add, hint, s64Loop_eq hlog (by omega), length_digitsText]
  simp

theorem s64Stores_neg {v : BitVec 64} (h : v.toInt < 0) (hmin : v ≠ BitVec.intMin 64) :
    s64Stores v = some (((0, chr '-') :: backwards 1 (digitsText (-v.toInt).toNat)) ++
      [(((chr '-' :: digitsText (-v.toInt).toNat).length : Int), 0)]) := by
  have hlog := log_lt_digitFuel (-v)
  have hneg : (-v).toInt = -v.toInt := BitVec.toInt_neg_of_ne_intMin hmin
  have hnonneg : 0 ≤ (-v).toInt := by omega
  have hnat : (-v).toNat = (-v.toInt).toNat := by
    have := toInt_of_nonneg hnonneg
    omega
  rw [hnat] at hlog
  have hint : (-v).toInt = ((-v.toInt).toNat : Int) := by omega
  rw [s64Stores, if_pos h]
  simp only [hnat, hint, sizeLoop_eq 0 hlog, Option.bind_eq_bind, Option.bind_some, Nat.zero_add]
  rw [s64Loop_eq hlog (by omega), Option.map_some, List.length_cons, length_digitsText]
  simp
  omega

/-- The negation of the smallest number is that number again: what is stored of it is the sign, a
character for a remainder of -8, and the NUL. -/
theorem s64Stores_intMin :
    s64Stores (BitVec.intMin 64) = some [(0, chr '-'), (19, chr '('), (20, 0)] := by decide

theorem not_prints_intMin :
    ¬Prints (s64ToStr (BitVec.intMin 64)) (s64Stores (BitVec.intMin 64))
      (decimalText (BitVec.intMin 64).toInt) := by
  intro h
  obtain ⟨buffs', hreturned⟩ := h.returns fun _ _ => 0
  have hsign : (returned (s64ToStr (BitVec.intMin 64)) fun _ _ => 0).map
      Prod.fst = some [chr '-'] := by decide +kernel
  rw [hreturned, Option.map_some, Option.some_inj] at hsign
  have hdiffers : decimalText (BitVec.intMin 64).toInt ≠ [chr '-'] := by decide +kernel
  exact hdiffers hsign

theorem zero_notMem_decimalText (n : Int) : 0 ∉ decimalText n := by
  rcases Int.eq_nat_or_neg n with ⟨m, rfl | rfl⟩
  · rw [decimalText_natCast]
    exact zero_notMem_digitsText m
  · rcases Nat.eq_zero_or_pos m with rfl | hm
    · decide
    · rw [decimalText_neg hm, List.mem_cons, not_or]
      exact ⟨by decide, zero_notMem_digitsText m⟩

theorem s64ToStr_prints {v : BitVec 64} (h : v ≠ BitVec.intMin 64) :
    Prints (s64ToStr v) (s64Stores v) (decimalText v.toInt) := by
  have hnul := zero_notMem_decimalText v.toInt
  by_cases hneg : v.toInt < 0
  · have hnat : v.toInt = -((-v.toInt).toNat : Int) := by omega
    have htext : decimalText v.toInt = chr '-' :: digitsText (-v.toInt).toNat := by
      rw [hnat, decimalText_neg (by omega), neg_neg, Int.toNat_natCast]
    have hlength : (digitsText (-v.toInt).toNat).length ≤ 19 := by
      have hlog : Nat.log 10 (-v.toInt).toNat < 19 := by
        have := BitVec.le_toInt v
        exact Nat.log_lt_of_lt_pow (by omega) (by omega)
      rw [length_digitsText]
      exact hlog
    rw [htext] at hnul ⊢
    rw [s64ToStr, s64Stores_neg hneg h]
    apply prints_of_place .toI64 ?_ (fun buff => makeStores_sign (by omega) buff) hnul
    · rw [List.length_cons]
      omega
    · intro store hmem
      cases hmem with
      | head => decide
      | tail _ hdigit =>
        have := mem_backwards hdigit
        omega
  · have hint := toInt_of_nonneg (Int.not_lt.mp hneg)
    have hlog := log_lt_digitFuel v
    have hlength : (digitsText v.toNat).length ≤ 20 := by
      rw [length_digitsText]
      exact hlog
    rw [s64ToStr, s64Stores_nonneg (by omega), hint, decimalText_natCast]
    exact prints_backwards .toI64 (zero_notMem_digitsText _) hlength

/-- `s64_to_str` prints every number but the smallest. -/
theorem s64ToStr_prints_iff (v : BitVec 64) :
    Prints (s64ToStr v) (s64Stores v) (decimalText v.toInt) ↔ v ≠ BitVec.intMin 64 := by
  constructor
  · rintro h rfl
    exact not_prints_intMin h
  · exact s64ToStr_prints

theorem smallest_number_not_printed :
    ¬∀ v : BitVec 64, Prints (s64ToStr v) (s64Stores v) (decimalText v.toInt) := by
  intro h
  exact not_prints_intMin (h (BitVec.intMin 64))

end MidnightOS.Debug
