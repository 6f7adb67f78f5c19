import MidnightOS.Nyxboot.Memory

/-! # The page tables as a radix trie

The tables in memory are a heap: frame numbers as addresses, 512 slots each,
and `entryFrame` to decode an entry.  `Tables` says that the pages obtained so
far form a trie of depth three below the `pml4` page; `memNextTable_spec` and
`memMapPage_spec` are what one call does to it, on success and on failure.

The abstract view is `pageMap`: which frame each of the `2 ^ 36` virtual pages
is mapped to.  A successful `memMapPage` updates it at one page.
-/

namespace MidnightOS.Nyxboot

open MidnightOS.Lib MidnightOS.Lib.HeapTrie

/-! ## Tables as a heap -/

/-- Slot `i` of the table in frame `frame`. -/
def slots (m : Mem) (frame : Nat) (i : Fin 512) : UINT64 := loadLE m 8 (4096 * frame + 8 * i)

/-- The frame an entry points at, if it is present. -/
def entryFrame (e : UINT64) : Option Nat :=
  if e.toNat % 2 = 0 then none else some (e.toNat / 4096 % 2 ^ 40)

/-- The entry that links the table in frame `frame`. -/
def tableEntry (frame : Nat) : UINT64 := BitVec.ofNat 64 (4096 * frame + 3)

/-- The slots that translate the virtual page with number `n`, topmost first. -/
def slotPath (n : Nat) : List (Fin 512) :=
  [⟨n / 2 ^ 27 % 512, Nat.mod_lt _ (by decide)⟩, ⟨n / 2 ^ 18 % 512, Nat.mod_lt _ (by decide)⟩,
    ⟨n / 2 ^ 9 % 512, Nat.mod_lt _ (by decide)⟩, ⟨n % 512, Nat.mod_lt _ (by decide)⟩]

/-- Two page numbers use the same slots iff they agree modulo `2 ^ 36`. -/
theorem slotPath_eq_iff (n k : Nat) : slotPath n = slotPath k ↔ n % 2 ^ 36 = k % 2 ^ 36 := by
  simp only [slotPath, List.cons.injEq, Fin.mk.injEq, and_true]
  omega

/-- The frame that a leaf entry for `paddr` points at. -/
def leafFrame (paddr : UINT64) : Nat := paddr.toNat / 4096 % 2 ^ 40

theorem entryFrame_tableEntry {b : Nat} (hb : b < 2 ^ 40) : entryFrame (tableEntry b) = some b := by
  have h : (tableEntry b).toNat = 4096 * b + 3 := by
    rw [tableEntry, BitVec.toNat_ofNat]; omega
  rw [entryFrame, h, if_neg (by omega)]
  exact congrArg some (by omega)

theorem tableAddr_tableEntry {b : Nat} (hb : b < 2 ^ 40) :
    (tableEntry b &&& ~~~0xFFF#64).toNat = 4096 * b := by
  have h : (tableEntry b).toNat = 4096 * b + 3 := by
    rw [tableEntry, BitVec.toNat_ofNat]; omega
  rw [tableAddr_toNat, h]
  omega

theorem or_pageWsp_eq_tableEntry {p : UINT64} {b : Nat} (h : p.toNat = 4096 * b) :
    p ||| pageWsp = tableEntry b := by
  apply BitVec.eq_of_toNat_eq
  have hlt := p.isLt
  rw [or_pageWsp_toNat (by omega), h, tableEntry, BitVec.toNat_ofNat]
  omega

/-- A leaf entry points at the page it was written for. -/
theorem entryFrame_leaf {p : UINT64} (h : p.toNat % 4096 = 0) :
    entryFrame (p ||| pageWsp) = some (leafFrame p) := by
  rw [entryFrame, or_pageWsp_toNat h, if_neg (by omega), leafFrame]
  exact congrArg some (by omega)

theorem entryFrame_eq_none_iff (e : UINT64) : entryFrame e = none ↔ e &&& pagePresent = 0 := by
  rw [absent_iff, entryFrame]
  by_cases h : e.toNat % 2 = 0
  · simp [h]
  · simp [h]

theorem presentAddr_eq (e : UINT64) :
    presentAddr e = (entryFrame e).map fun f => BitVec.ofNat 64 (4096 * f) := by
  by_cases h : e &&& pagePresent = 0
  · rw [presentAddr, if_pos h, (entryFrame_eq_none_iff e).mpr h, Option.map_none]
  · have hodd : ¬e.toNat % 2 = 0 := fun h0 => h ((absent_iff e).mpr h0)
    rw [presentAddr, if_neg h, entryFrame, if_neg hodd, Option.map_some]
    congr 1
    apply BitVec.eq_of_toNat_eq
    rw [entryAddr_toNat, BitVec.toNat_ofNat]
    omega

theorem entryFrame_lt {e : UINT64} {b : Nat} (h : entryFrame e = some b) : b < 2 ^ 40 := by
  unfold entryFrame at h
  split at h
  · cases h
  · obtain rfl := Option.some.inj h
    exact Nat.mod_lt _ (by decide)

/-! ## Writes to a table -/

theorem slots_storeLE (m : Mem) (a b : Nat) (i j : Fin 512) (w : UINT64) :
    slots (storeLE m 8 (4096 * a + 8 * i) w) b j =
      if b = a ∧ j = i then w else slots m b j := by
  unfold slots
  by_cases h : b = a ∧ j = i
  · obtain ⟨rfl, rfl⟩ := h
    rw [if_pos ⟨rfl, rfl⟩]
    exact loadLE_storeLE_same m 8 _ w
  · rw [if_neg h]
    have hi := i.isLt
    have hj := j.isLt
    have hne : b ≠ a ∨ (j : Nat) ≠ i := by
      by_contra hc
      rw [not_or, not_not, not_not] at hc
      exact h ⟨hc.1, Fin.ext hc.2⟩
    exact loadLE_storeLE_disjoint (by omega)

theorem slots_fill (m : Mem) (a b : Nat) (j : Fin 512) :
    slots (fill m (4096 * a) 0x1000 0) b j = if b = a then 0 else slots m b j := by
  have hj := j.isLt
  unfold slots
  by_cases h : b = a
  · rw [if_pos h]
    exact loadLE_fill_zero (by omega) (by omega)
  · rw [if_neg h]
    exact loadLE_fill_disjoint (by omega)

theorem slots_congr {m m' : Mem} {a : Nat} (h : ∀ x, x / 4096 = a → m' x = m x) (i : Fin 512) :
    slots m' a i = slots m a i := by
  have hi := i.isLt
  exact loadLE_congr fun k hk => h _ (by omega)

/-! ## The walk of the processor is a walk of the trie -/

theorem loadLE_slotAddr {m : Mem} {t i : UINT64} {a : Nat} {k : Fin 512}
    (ht : t.toNat = 4096 * a) (hi : i.toNat = k) :
    loadLE m 8 (slotAddr t i) = slots m a k := by
  rw [slotAddr, ht, hi, slots]

theorem ofNat_frame_toNat {b : Nat} (hb : b < 2 ^ 40) :
    (BitVec.ofNat 64 (4096 * b)).toNat = 4096 * b := by
  rw [BitVec.toNat_ofNat]
  omega

/-- One step of `translate`. -/
theorem presentAddr_bind {m : Mem} {t i : UINT64} {a : Nat} {k : Fin 512} {p : List (Fin 512)}
    {f : UINT64 → Option UINT64} {g : Nat → UINT64} (ht : t.toNat = 4096 * a) (hi : i.toNat = k)
    (hf : ∀ b, b < 2 ^ 40 → f (BitVec.ofNat 64 (4096 * b)) =
      (walk entryFrame (slots m) b p).map g) :
    (presentAddr (loadLE m 8 (slotAddr t i))).bind f =
      (walk entryFrame (slots m) a (k :: p)).map g := by
  rw [presentAddr_eq, loadLE_slotAddr ht hi]
  cases hb : entryFrame (slots m a k) with
  | none => rw [walk_cons_none hb]; rfl
  | some b =>
    rw [walk_cons_some hb, Option.map_some, Option.bind_some]
    exact hf b (entryFrame_lt hb)

/-! ## The page map -/

/-- Which frame each virtual page is mapped to, by page number.  Only the page
    number modulo `2 ^ 36` matters. -/
abbrev PageMap := Nat → Option Nat

def PageMap.set (M : PageMap) (n f : Nat) : PageMap := fun k =>
  if k % 2 ^ 36 = n % 2 ^ 36 then some f else M k

theorem PageMap.set_congr (M : PageMap) {n n' : Nat} (f : Nat) (h : n % 2 ^ 36 = n' % 2 ^ 36) :
    M.set n f = M.set n' f := by
  funext k
  rw [PageMap.set, PageMap.set, h]

/-- Map `count` consecutive pages from `n` on to consecutive frames from `f` on,
    in order.  Frame numbers have 40 bits. -/
def PageMap.setRange (M : PageMap) (n f : Nat) : Nat → PageMap
  | 0 => M
  | count + 1 => (M.setRange n f count).set (n + count) ((f + count) % 2 ^ 40)

/-- A range may as well be mapped first page first. -/
theorem PageMap.setRange_succ' (M : PageMap) (n f count : Nat) :
    M.setRange n f (count + 1) = (M.set n (f % 2 ^ 40)).setRange (n + 1) (f + 1) count := by
  induction count with
  | zero => rfl
  | succ count ih =>
    rw [PageMap.setRange, ih, PageMap.setRange]
    congr 1
    · omega
    · omega

/-- The last page of a range at a given address wins. -/
theorem PageMap.setRange_of_mem (M : PageMap) {n f count j k : Nat} (hj : j < count)
    (hk : k % 2 ^ 36 = (n + j) % 2 ^ 36) (hlast : count ≤ j + 2 ^ 36) :
    M.setRange n f count k = some ((f + j) % 2 ^ 40) := by
  induction count with
  | zero => omega
  | succ count ih =>
    rw [PageMap.setRange, PageMap.set]
    by_cases h : j = count
    · subst h
      rw [if_pos hk]
    · rw [if_neg (by omega)]
      exact ih (by omega) (by omega)

theorem PageMap.setRange_of_not_mem (M : PageMap) {n f count k : Nat}
    (h : ∀ j < count, k % 2 ^ 36 ≠ (n + j) % 2 ^ 36) : M.setRange n f count k = M k := by
  induction count with
  | zero => rfl
  | succ count ih =>
    rw [PageMap.setRange, PageMap.set, if_neg (h count (by omega))]
    exact ih fun j hj => h j (by omega)

/-- The page map that the tables below `root` stand for. -/
def pageMap (m : Mem) (root : Nat) : PageMap := fun n =>
  walk entryFrame (slots m) root (slotPath n)

theorem translate_eq_pageMap {m : Mem} {pml4 : UINT64} {root : Nat}
    (hroot : pml4.toNat = 4096 * root) (v : UINT64) :
    translate m pml4 v = (pageMap m root (v.toNat / 4096)).map
      fun f => BitVec.ofNat 64 (4096 * f) + (v &&& 0xFFF#64) := by
  apply presentAddr_bind hroot (pml4Entry_toNat v)
  intro b hb
  apply presentAddr_bind (ofNat_frame_toNat hb) (pdptEntry_toNat v)
  intro c hc
  apply presentAddr_bind (ofNat_frame_toNat hc) (pdEntry_toNat v)
  intro d hd
  apply presentAddr_bind (ofNat_frame_toNat hd) (ptEntry_toNat v)
  intro e _
  rfl

end MidnightOS.Nyxboot
