import Mathlib.Algebra.Order.Ring.Nat
import Mathlib.Order.Interval.Finset.Nat
import Mathlib.Tactic.Common

/-! # Byte-addressed memory

A flat memory is a function from addresses to bytes.  `loadLE` and `storeLE`
read and write little-endian words of any width, `fill` and `blit` are the two
bulk writes.  Each write has one lemma saying what every byte is afterwards;
the word-level lemmas follow from those.
-/

namespace MidnightOS.Lib

abbrev Byte := BitVec 8

abbrev Mem := Nat → Byte

/-- The `n` bytes from `a` on, as a little-endian word. -/
def loadLE (m : Mem) : (n : Nat) → Nat → BitVec (8 * n)
  | 0, _ => 0#0
  | n + 1, a => loadLE m n (a + 1) ++ m a

/-- Store the `n` bytes of `w`, least significant first, from `a` on. -/
def storeLE (m : Mem) (n : Nat) (a : Nat) (w : BitVec (8 * n)) : Mem := fun x =>
  if a ≤ x ∧ x < a + n then w.extractLsb' (8 * (x - a)) 8 else m x

/-- Set the `n` bytes from `a` on to `b`. -/
def fill (m : Mem) (a n : Nat) (b : Byte) : Mem := fun x =>
  if a ≤ x ∧ x < a + n then b else m x

/-- Copy `bytes` to the addresses from `a` on. -/
def blit (m : Mem) (a : Nat) (bytes : List Byte) : Mem := fun x =>
  if a ≤ x ∧ x < a + bytes.length then bytes.getD (x - a) 0 else m x

/-- The `n` bytes from `a` on, as a list. -/
def slice (m : Mem) (a n : Nat) : List Byte :=
  (List.range n).map fun i => m (a + i)

/-- The little-endian bytes of a word. -/
def leBytes (n : Nat) (w : BitVec (8 * n)) : List Byte :=
  (List.range n).map fun i => w.extractLsb' (8 * i) 8

/-! ## Loads -/

/-- Equal bytes make equal words, wherever they are. -/
theorem loadLE_moved {m m' : Mem} {n a a' : Nat} (h : ∀ i < n, m (a + i) = m' (a' + i)) :
    loadLE m n a = loadLE m' n a' := by
  induction n generalizing a a' with
  | zero => rfl
  | succ n ih =>
    have htail : loadLE m n (a + 1) = loadLE m' n (a' + 1) := by
      apply ih
      intro i hi
      have := h (i + 1) (by omega)
      rwa [show a + (i + 1) = a + 1 + i by omega, show a' + (i + 1) = a' + 1 + i by omega] at this
    have hhead : m a = m' a' := h 0 (by omega)
    simp only [loadLE, htail, hhead]

theorem loadLE_congr {m m' : Mem} {n a : Nat} (h : ∀ i < n, m (a + i) = m' (a + i)) :
    loadLE m n a = loadLE m' n a := loadLE_moved h

/-- Bit `i` of a loaded word is bit `i % 8` of the byte at offset `i / 8`. -/
theorem getLsbD_loadLE (m : Mem) (n a i : Nat) (hi : i < 8 * n) :
    (loadLE m n a).getLsbD i = (m (a + i / 8)).getLsbD (i % 8) := by
  induction n generalizing a i with
  | zero => omega
  | succ n ih =>
    simp only [loadLE, BitVec.getLsbD_append]
    by_cases hlow : i < 8
    · simp [hlow, Nat.div_eq_of_lt hlow, Nat.mod_eq_of_lt hlow]
    · have hdiv : a + 1 + (i - 8) / 8 = a + i / 8 := by omega
      have hmod : (i - 8) % 8 = i % 8 := by omega
      rw [if_neg hlow, ih (a + 1) (i - 8) (by omega), hdiv, hmod]

/-- Equal words have equal bytes. -/
theorem bytes_of_loadLE {m m' : Mem} {n a a' : Nat} (h : loadLE m n a = loadLE m' n a') :
    ∀ i < n, m (a + i) = m' (a' + i) := by
  intro i hi
  apply BitVec.eq_of_getLsbD_eq
  intro j hj
  have hbit := getLsbD_loadLE m n a (8 * i + j) (by omega)
  have hbit' := getLsbD_loadLE m' n a' (8 * i + j) (by omega)
  have hdiv : (8 * i + j) / 8 = i := by omega
  have hmod : (8 * i + j) % 8 = j := by omega
  rw [hdiv, hmod] at hbit hbit'
  rw [← hbit, ← hbit', h]

/-! ## Stores -/

theorem storeLE_of_outside {m : Mem} {n a x : Nat} {w : BitVec (8 * n)}
    (h : x < a ∨ a + n ≤ x) : storeLE m n a w x = m x := by
  simp only [storeLE, ite_eq_right_iff]
  omega

theorem loadLE_storeLE_same (m : Mem) (n a : Nat) (w : BitVec (8 * n)) :
    loadLE (storeLE m n a w) n a = w := by
  apply BitVec.eq_of_getLsbD_eq
  intro i hi
  rw [getLsbD_loadLE _ _ _ _ hi]
  have hin : a ≤ a + i / 8 ∧ a + i / 8 < a + n := by omega
  have hoff : a + i / 8 - a = i / 8 := by omega
  simp only [storeLE, if_pos hin, hoff, BitVec.getLsbD_extractLsb']
  have hmod : i % 8 < 8 := Nat.mod_lt _ (by omega)
  simp [hmod, Nat.div_add_mod]

theorem loadLE_storeLE_disjoint {m : Mem} {n k a b : Nat} {w : BitVec (8 * k)}
    (h : a + n ≤ b ∨ b + k ≤ a) : loadLE (storeLE m k b w) n a = loadLE m n a :=
  loadLE_congr fun i hi => storeLE_of_outside (by omega)

/-! ## Bulk writes -/

theorem fill_of_outside {m : Mem} {a n x : Nat} {b : Byte} (h : x < a ∨ a + n ≤ x) :
    fill m a n b x = m x := by
  simp only [fill, ite_eq_right_iff]
  omega

theorem fill_of_inside {m : Mem} {a n x : Nat} {b : Byte} (h : a ≤ x) (h' : x < a + n) :
    fill m a n b x = b := if_pos ⟨h, h'⟩

theorem loadLE_fill_disjoint {m : Mem} {n k a b : Nat} {v : Byte}
    (h : a + n ≤ b ∨ b + k ≤ a) : loadLE (fill m b k v) n a = loadLE m n a :=
  loadLE_congr fun i hi => fill_of_outside (by omega)

theorem loadLE_zero_of_bytes {m : Mem} {n a : Nat} (h : ∀ i < n, m (a + i) = 0) :
    loadLE m n a = 0 := by
  apply BitVec.eq_of_getLsbD_eq
  intro i hi
  rw [getLsbD_loadLE _ _ _ _ hi, h (i / 8) (by omega)]
  simp

theorem loadLE_fill_zero {m : Mem} {n k a b : Nat} (h : b ≤ a) (h' : a + n ≤ b + k) :
    loadLE (fill m b k 0) n a = 0 :=
  loadLE_zero_of_bytes fun i hi => fill_of_inside (by omega) (by omega)

theorem blit_of_outside {m : Mem} {a x : Nat} {bytes : List Byte}
    (h : x < a ∨ a + bytes.length ≤ x) : blit m a bytes x = m x := by
  simp only [blit, ite_eq_right_iff]
  omega

theorem blit_of_inside {m : Mem} {a i : Nat} {bytes : List Byte} (h : i < bytes.length) :
    blit m a bytes (a + i) = bytes[i] := by
  have hin : a ≤ a + i ∧ a + i < a + bytes.length := by omega
  have hoff : a + i - a = i := by omega
  simp [blit, hin, hoff, h]

/-! ## Slices -/

@[simp] theorem length_slice (m : Mem) (a n : Nat) : (slice m a n).length = n := by
  simp [slice]

theorem getElem_slice (m : Mem) (a n i : Nat) (h : i < (slice m a n).length) :
    (slice m a n)[i] = m (a + i) := by
  simp [slice]

theorem slice_congr {m m' : Mem} {a n : Nat} (h : ∀ i < n, m (a + i) = m' (a + i)) :
    slice m a n = slice m' a n := by
  apply List.map_congr_left
  intro i hi
  exact h i (List.mem_range.mp hi)

theorem slice_succ (m : Mem) (a n : Nat) : slice m a (n + 1) = m a :: slice m (a + 1) n := by
  simp only [slice, List.range_succ_eq_map, List.map_cons, List.map_map, Nat.add_zero]
  congr 1
  apply List.map_congr_left
  intro i _
  simp only [Function.comp_apply, Nat.succ_eq_add_one]
  rw [show a + (i + 1) = a + 1 + i by omega]

theorem slice_add (m : Mem) (a n k : Nat) :
    slice m a (n + k) = slice m a n ++ slice m (a + n) k := by
  induction n generalizing a with
  | zero => simp [slice]
  | succ n ih =>
    rw [show n + 1 + k = n + k + 1 by omega, slice_succ, slice_succ, ih (a + 1),
      show a + 1 + n = a + (n + 1) by omega]
    rfl

/-! ## Known contents -/

/-- The bytes from `a` on are `bytes`. -/
def HasBytes (m : Mem) (a : Nat) (bytes : List Byte) : Prop := slice m a bytes.length = bytes

theorem hasBytes_iff {m : Mem} {a : Nat} {bytes : List Byte} :
    HasBytes m a bytes ↔ ∀ i (hi : i < bytes.length), m (a + i) = bytes[i] := by
  constructor
  · intro h i hi
    have byte := getElem_slice m a bytes.length i (by simpa using hi)
    rw [← byte]
    congr 1
  · intro h
    apply List.ext_getElem (length_slice m a bytes.length)
    intro i _ hi
    rw [getElem_slice, h i hi]

theorem hasBytes_append {m : Mem} {a : Nat} {xs ys : List Byte} :
    HasBytes m a (xs ++ ys) ↔ HasBytes m a xs ∧ HasBytes m (a + xs.length) ys := by
  rw [HasBytes, List.length_append, slice_add]
  constructor
  · intro h
    exact List.append_inj h (length_slice m a xs.length)
  · intro h
    rw [h.1, h.2]

theorem HasBytes.parts {m : Mem} {a : Nat} (xs ys : List Byte) (h : HasBytes m a (xs ++ ys)) :
    HasBytes m a xs ∧ HasBytes m (a + xs.length) ys := hasBytes_append.mp h

theorem hasBytes_cons {m : Mem} {a : Nat} {b : Byte} {bytes : List Byte} :
    HasBytes m a (b :: bytes) ↔ m a = b ∧ HasBytes m (a + 1) bytes := by
  rw [HasBytes, HasBytes, List.length_cons, slice_succ, List.cons.injEq]

theorem HasBytes.getD_eq {m : Mem} {a : Nat} {bytes : List Byte} (h : HasBytes m a bytes) {i : Nat}
    (hi : i < bytes.length) : m (a + i) = bytes.getD (0 + i) 0 := by
  rw [hasBytes_iff.mp h i hi, Nat.zero_add, List.getD_eq_getElem?_getD,
    List.getElem?_eq_getElem hi, Option.getD_some]

theorem hasBytes_getD (bytes : List Byte) : HasBytes (fun i => bytes.getD i 0) 0 bytes := by
  rw [hasBytes_iff]
  intro i hi
  simp [List.getD_eq_getElem?_getD, List.getElem?_eq_getElem hi]

@[simp] theorem length_leBytes (n : Nat) (w : BitVec (8 * n)) : (leBytes n w).length = n := by
  simp [leBytes]

/-- The bytes of two words are those of the word made of both. -/
theorem leBytes_append {n k : Nat} (hi : BitVec (8 * k)) (lo : BitVec (8 * n)) :
    leBytes n lo ++ leBytes k hi = leBytes (n + k) ((hi ++ lo).cast (by omega)) := by
  apply List.ext_getElem
  · simp
  intro i hi _
  rw [List.length_append, length_leBytes, length_leBytes] at hi
  by_cases low : i < n
  · rw [List.getElem_append_left (by simpa using low)]
    apply BitVec.eq_of_getLsbD_eq
    intro j hj
    simp [leBytes, BitVec.getLsbD_append, hj, show 8 * i + j < 8 * n by omega]
  · rw [List.getElem_append_right (by simpa using low)]
    apply BitVec.eq_of_getLsbD_eq
    intro j hj
    have place : 8 * (i - n) + j = 8 * i + j - 8 * n := by omega
    simp [leBytes, BitVec.getLsbD_append, hj, place, show ¬8 * i + j < 8 * n by omega]

theorem HasBytes.loadLE {m : Mem} {a n : Nat} {w : BitVec (8 * n)}
    (h : HasBytes m a (leBytes n w)) : loadLE m n a = w := by
  rw [hasBytes_iff] at h
  apply BitVec.eq_of_getLsbD_eq
  intro i hi
  have inside : i / 8 < n := by omega
  rw [getLsbD_loadLE m n a i hi, h (i / 8) (by simpa using inside)]
  simp [leBytes, Nat.mod_lt, Nat.div_add_mod]

/-- Records of one size, one after another. -/
theorem HasBytes.flatMap {α : Type} {encode : α → List Byte} {size : Nat}
    (length_encode : ∀ x, (encode x).length = size) {xs : List α} {m : Mem} {a : Nat}
    (h : HasBytes m a (xs.flatMap encode)) (i : Nat) (hi : i < xs.length) :
    HasBytes m (a + size * i) (encode xs[i]) := by
  induction xs generalizing a i with
  | nil => cases hi
  | cons x xs ih =>
    rw [List.flatMap_cons, hasBytes_append, length_encode] at h
    cases i with
    | zero => exact h.1
    | succ i =>
      have next := ih h.2 i (Nat.lt_of_succ_lt_succ hi)
      rwa [Nat.add_assoc, Nat.add_comm size, ← Nat.mul_succ] at next

/-! ## Address ranges -/

/-- The addresses of some ranges, each given by its start and length. -/
def addresses (ranges : List (Nat × Nat)) : Finset Nat :=
  ranges.foldr (fun r acc => Finset.Ico r.1 (r.1 + r.2) ∪ acc) ∅

theorem mem_addresses {ranges : List (Nat × Nat)} {x : Nat} :
    x ∈ addresses ranges ↔ ∃ r ∈ ranges, r.1 ≤ x ∧ x < r.1 + r.2 := by
  induction ranges with
  | nil => simp [addresses]
  | cons r ranges ih =>
    change x ∈ Finset.Ico r.1 (r.1 + r.2) ∪ addresses ranges ↔ _
    simp [ih]

/-- Disjoint ranges have as many addresses as their lengths add up to. -/
theorem card_addresses {ranges : List (Nat × Nat)}
    (disjoint : ranges.Pairwise fun r r' =>
      ∀ x, r.1 ≤ x → x < r.1 + r.2 → ¬(r'.1 ≤ x ∧ x < r'.1 + r'.2)) :
    (addresses ranges).card = (ranges.map (·.2)).sum := by
  induction ranges with
  | nil => rfl
  | cons r ranges ih =>
    rw [List.pairwise_cons] at disjoint
    have apart : Disjoint (Finset.Ico r.1 (r.1 + r.2)) (addresses ranges) := by
      rw [Finset.disjoint_left]
      intro x inside other
      obtain ⟨r', hr', hx⟩ := mem_addresses.mp other
      rw [Finset.mem_Ico] at inside
      exact disjoint.1 r' hr' x inside.1 inside.2 hx
    change (Finset.Ico r.1 (r.1 + r.2) ∪ addresses ranges).card = _
    rw [Finset.card_union_of_disjoint apart, ih disjoint.2, Nat.card_Ico, List.map_cons,
      List.sum_cons]
    omega

/-- Disjoint ranges below `limit` are together no longer than `limit`. -/
theorem sum_length_le_of_disjoint {limit : Nat} {ranges : List (Nat × Nat)}
    (below : ∀ r ∈ ranges, r.1 + r.2 ≤ limit)
    (disjoint : ranges.Pairwise fun r r' =>
      ∀ x, r.1 ≤ x → x < r.1 + r.2 → ¬(r'.1 ≤ x ∧ x < r'.1 + r'.2)) :
    (ranges.map (·.2)).sum ≤ limit := by
  have covered : addresses ranges ⊆ Finset.range limit := by
    intro x hx
    obtain ⟨r, hr, _, hlt⟩ := mem_addresses.mp hx
    have := below r hr
    exact Finset.mem_range.mpr (by omega)
  rw [← card_addresses disjoint]
  simpa using Finset.card_le_card covered

end MidnightOS.Lib
