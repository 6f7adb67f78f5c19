import MidnightOS.Lib.ByteMemory
import Mathlib.Data.BitVec
import Mathlib.Data.List.GetD

/-! # Words on a stack

A memory of bytes with 64-bit addresses, which wrap: a stack may lie anywhere.
`WordsAt m a ws` says that the words `ws` lie one behind the other from `a` on,
`copyAt` and `bytesAt` write and read bytes in a row.
-/

namespace MidnightOS.Lib

abbrev Word := BitVec 64

abbrev WordMem := Word → Byte

/-- The address `k` bytes behind `a`. -/
def behind (a : Word) (k : Nat) : Word := a + BitVec.ofNat 64 k

/-- The `n` bytes from `a` on, as a little-endian word. -/
def loadAt (m : WordMem) (n : Nat) (a : Word) : BitVec (8 * n) := loadLE (fun k => m (behind a k)) n 0

/-- Store a word at `a`. -/
def storeAt (m : WordMem) (a w : Word) : WordMem := fun x =>
  if (x - a).toNat < 8 then w.extractLsb' (8 * (x - a).toNat) 8 else m x

theorem behind_zero (a : Word) : behind a 0 = a := by
  simp [behind]

theorem behind_behind (a : Word) (j k : Nat) : behind (behind a j) k = behind a (j + k) := by
  simp only [behind, BitVec.add_assoc, ← BitVec.ofNat_add]

theorem toNat_behind_sub (a : Word) {k : Nat} (h : k < 2 ^ 64) : (behind a k - a).toNat = k := by
  unfold behind
  bv_omega

/-! ## Loads and stores -/

theorem loadAt_congr {m m' : WordMem} {n : Nat} {a : Word}
    (h : ∀ k < n, m (behind a k) = m' (behind a k)) : loadAt m n a = loadAt m' n a := by
  apply loadLE_moved
  intro k hk
  simpa using h k hk

theorem loadAt_storeAt_same (m : WordMem) (a w : Word) : loadAt (storeAt m a w) 8 a = w := by
  have hbytes : loadAt (storeAt m a w) 8 a = loadLE (storeLE (fun k => m (behind a k)) 8 0 w) 8 0 := by
    apply loadLE_moved
    intro k hk
    rw [Nat.zero_add]
    simp only [storeAt, storeLE, toNat_behind_sub a (show k < 2 ^ 64 by omega), Nat.zero_le,
      true_and, Nat.zero_add, Nat.sub_zero]
  rw [hbytes]
  exact loadLE_storeLE_same _ _ _ _

/-- A store does not change what lies behind the stored word. -/
theorem storeAt_behind (m : WordMem) (a w : Word) {k : Nat} (h : 8 ≤ k) (h' : k < 2 ^ 64) :
    storeAt m a w (behind a k) = m (behind a k) := by
  unfold storeAt
  rw [toNat_behind_sub a h', if_neg (by omega)]

/-- The low half of a word. -/
theorem loadAt_low (m : WordMem) (a : Word) : loadAt m 4 a = (loadAt m 8 a).setWidth 32 := by
  apply BitVec.eq_of_getLsbD_eq
  intro i hi
  rw [BitVec.getLsbD_setWidth]
  simp only [loadAt]
  rw [getLsbD_loadLE _ _ _ _ hi, getLsbD_loadLE _ _ _ _ (by omega)]
  simp [hi]

/-- The high half of a word. -/
theorem loadAt_high (m : WordMem) (a : Word) :
    loadAt m 4 (behind a 4) = (loadAt m 8 a).extractLsb' 32 32 := by
  apply BitVec.eq_of_getLsbD_eq
  intro i hi
  rw [BitVec.getLsbD_extractLsb']
  simp only [loadAt]
  rw [getLsbD_loadLE _ _ _ _ hi, getLsbD_loadLE _ _ _ _ (by omega), behind_behind,
    show 4 + (0 + i / 8) = 0 + (32 + i) / 8 by omega, show (32 + i) % 8 = i % 8 by omega]
  simp [hi]

/-! ## Words in a row -/

def WordsAt (m : WordMem) : (a : Word) → List Word → Prop
  | _, [] => True
  | a, w :: ws => loadAt m 8 a = w ∧ WordsAt m (behind a 8) ws

theorem WordsAt.congr {m m' : WordMem} {a : Word} {ws : List Word} (h : WordsAt m a ws)
    (hsame : ∀ k < 8 * ws.length, m' (behind a k) = m (behind a k)) : WordsAt m' a ws := by
  induction ws generalizing a with
  | nil => trivial
  | cons w ws ih =>
    rw [List.length_cons] at hsame
    refine ⟨?_, ih h.2 fun k hk => ?_⟩
    · rw [loadAt_congr fun k hk => hsame k (by omega)]
      exact h.1
    · rw [behind_behind]
      exact hsame (8 + k) (by omega)

theorem wordsAt_append {m : WordMem} {a : Word} {ws ws' : List Word} :
    WordsAt m a (ws ++ ws') ↔ WordsAt m a ws ∧ WordsAt m (behind a (8 * ws.length)) ws' := by
  induction ws generalizing a with
  | nil => simp [WordsAt, behind_zero]
  | cons w ws ih =>
    rw [List.cons_append, WordsAt, WordsAt, ih, behind_behind, List.length_cons,
      show 8 + 8 * ws.length = 8 * (ws.length + 1) by omega, and_assoc]

theorem WordsAt.get {m : WordMem} {a : Word} {ws : List Word} (h : WordsAt m a ws) {i : Nat}
    {w : Word} (hi : ws[i]? = some w) : loadAt m 8 (behind a (8 * i)) = w := by
  induction ws generalizing a i with
  | nil => cases hi
  | cons first ws ih =>
    cases i with
    | zero =>
      cases hi
      rw [Nat.mul_zero, behind_zero]
      exact h.1
    | succ i =>
      rw [show 8 * (i + 1) = 8 + 8 * i by omega, ← behind_behind]
      exact ih h.2 hi

/-- A store in front of the words, with a gap or none. -/
theorem WordsAt.store {m : WordMem} {a : Word} {ws : List Word} (h : WordsAt m a ws) {b : Word}
    (gap : Nat) (ha : a = behind b (8 + gap)) (hroom : 8 + gap + 8 * ws.length ≤ 2 ^ 64) (w : Word) :
    WordsAt (storeAt m b w) a ws := by
  apply h.congr
  intro k hk
  rw [ha, behind_behind]
  exact storeAt_behind m b w (by omega) (by omega)

theorem WordsAt.push {m : WordMem} {a : Word} {ws : List Word} (h : WordsAt m a ws)
    (hroom : 8 + 8 * ws.length ≤ 2 ^ 64) (w : Word) :
    WordsAt (storeAt m (a - 8) w) (a - 8) (w :: ws) := by
  have ha : behind (a - 8) 8 = a := by simp [behind]
  refine ⟨loadAt_storeAt_same m (a - 8) w, ?_⟩
  rw [ha]
  exact h.store 0 (by rw [Nat.add_zero, ha]) (by omega) w

/-! ## Bytes -/

/-- The `n` bytes from `a` on. -/
def bytesAt (m : WordMem) (a : Word) (n : Nat) : List Byte := (List.range n).map fun k => m (behind a k)

/-- Copy `bytes` to `a`. -/
def copyAt (m : WordMem) (a : Word) (bytes : List Byte) : WordMem := fun x =>
  bytes.getD (x - a).toNat (m x)

@[simp] theorem length_bytesAt (m : WordMem) (a : Word) (n : Nat) : (bytesAt m a n).length = n := by
  simp [bytesAt]

theorem copyAt_outside (m : WordMem) {a x : Word} {bytes : List Byte}
    (h : bytes.length ≤ (x - a).toNat) : copyAt m a bytes x = m x := by
  rw [copyAt, List.getD_eq_default _ _ h]

theorem bytesAt_congr {m m' : WordMem} {a : Word} {n : Nat}
    (h : ∀ k < n, m (behind a k) = m' (behind a k)) : bytesAt m a n = bytesAt m' a n := by
  apply List.map_congr_left
  intro k hk
  exact h k (List.mem_range.mp hk)

theorem bytesAt_copyAt_same (m : WordMem) (a : Word) {bytes : List Byte}
    (h : bytes.length ≤ 2 ^ 64) : bytesAt (copyAt m a bytes) a bytes.length = bytes := by
  apply List.ext_getElem
  · simp
  intro k _ hk
  simp only [bytesAt, List.getElem_map, List.getElem_range]
  rw [copyAt, toNat_behind_sub a (Nat.lt_of_lt_of_le hk h)]
  simp [hk]

theorem storeAt_eq_copyAt (m : WordMem) (a w : Word) : storeAt m a w = copyAt m a (leBytes 8 w) := by
  funext x
  unfold storeAt copyAt
  generalize (x - a).toNat = k
  by_cases h : k < 8
  · simp [leBytes, h]
  · rw [if_neg h, List.getD_eq_default _ _ (by simpa using Nat.le_of_not_lt h)]

/-- Two copies, one right behind the other, are one. -/
theorem copyAt_append (m : WordMem) (a : Word) {xs ys : List Byte}
    (h : xs.length + ys.length ≤ 2 ^ 64) :
    copyAt (copyAt m a xs) (behind a xs.length) ys = copyAt m a (xs ++ ys) := by
  funext x
  have hx := (x - a).isLt
  by_cases hfirst : (x - a).toNat < xs.length
  · have hout : ys.length ≤ (x - behind a xs.length).toNat := by
      unfold behind
      bv_omega
    rw [copyAt_outside _ hout, copyAt, copyAt, List.getD_append _ _ _ _ hfirst]
  · have hoff : (x - behind a xs.length).toNat = (x - a).toNat - xs.length := by
      unfold behind
      bv_omega
    rw [copyAt, copyAt, copyAt, hoff, List.getD_append_right _ _ _ _ (Nat.le_of_not_lt hfirst),
      List.getD_eq_default _ _ (Nat.le_of_not_lt hfirst)]

end MidnightOS.Lib
