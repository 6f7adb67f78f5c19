import Mathlib.Algebra.Group.Nat.Defs
import Mathlib.Tactic.Common
import Mathlib.Data.List.Nodup
import Mathlib.Data.List.Perm.Lattice

/-! # Radix tries stored in a heap of tables

A heap gives every table address `a` and slot `i` a raw entry `h a i`; `ptr`
decodes an entry to the address it points at, if it is present.  A path is a
list of slots and `walk` follows it.  A trie of depth `d` uses the tables at
paths of length at most `d`; an entry at a path of length `d + 1` is a leaf, and
what it points at is data.

`IsTrie` is the invariant: no table is reached by two paths, and the tables in
use are exactly those reached by a nonempty path.  Linking an empty table and
writing a leaf keep it, and each changes the outcome of exactly one walk.  The
second half is about visiting every table and releasing it on the way out.
-/

namespace MidnightOS.Lib.HeapTrie

variable {ι W α : Type}

/-- Follow a path from a table. -/
def walk (ptr : W → Option α) (h : α → ι → W) : α → List ι → Option α
  | a, [] => some a
  | a, i :: path =>
    match ptr (h a i) with
    | none => none
    | some b => walk ptr h b path

section Walk

variable {ptr : W → Option α} {h h' : α → ι → W} {a b : α} {p q r : List ι} {i : ι}

@[simp] theorem walk_nil : walk ptr h a [] = some a := rfl

theorem walk_cons_some (hi : ptr (h a i) = some b) :
    walk ptr h a (i :: p) = walk ptr h b p := by
  simp only [walk, hi]

theorem walk_cons_none (hi : ptr (h a i) = none) : walk ptr h a (i :: p) = none := by
  simp only [walk, hi]

theorem length_lt_of_split (h : p = q ++ i :: r) : q.length < p.length := by
  simp only [h, List.length_append, List.length_cons]
  omega

@[simp] theorem length_snoc : (p ++ [i]).length = p.length + 1 := List.length_append

theorem walk_append : walk ptr h a (p ++ q) = (walk ptr h a p).bind (walk ptr h · q) := by
  induction p generalizing a with
  | nil => rfl
  | cons i p ih =>
    cases hi : ptr (h a i) with
    | none => simp only [List.cons_append, walk_cons_none hi, Option.bind_none]
    | some b => simp only [List.cons_append, walk_cons_some hi, ih]

theorem walk_append_of_some (hp : walk ptr h a p = some b) :
    walk ptr h a (p ++ q) = walk ptr h b q := by
  rw [walk_append, hp, Option.bind_some]

theorem walk_snoc (hp : walk ptr h a p = some b) :
    walk ptr h a (p ++ [i]) = ptr (h b i) := by
  rw [walk_append_of_some hp]
  cases hi : ptr (h b i) with
  | none => exact walk_cons_none hi
  | some c => exact walk_cons_some hi

theorem walk_snoc_inv (hp : walk ptr h a (p ++ [i]) = some b) :
    ∃ c, walk ptr h a p = some c ∧ ptr (h c i) = some b := by
  cases hc : walk ptr h a p with
  | none => simp [walk_append, hc] at hp
  | some c => exact ⟨c, rfl, by rw [← walk_snoc hc]; exact hp⟩

/-- A walk only looks at the entries it passes through. -/
theorem walk_congr
    (hsame : ∀ q i r c, p = q ++ i :: r → walk ptr h a q = some c → h' c i = h c i) :
    walk ptr h' a p = walk ptr h a p := by
  induction p generalizing a with
  | nil => rfl
  | cons i p ih =>
    have hhead : h' a i = h a i := hsame [] i p a rfl rfl
    cases hi : ptr (h a i) with
    | none => rw [walk_cons_none hi, walk_cons_none (by rw [hhead, hi])]
    | some b =>
      rw [walk_cons_some hi, walk_cons_some (by rw [hhead, hi])]
      apply ih
      intro q j r c hp hq
      exact hsame (i :: q) j r c (by rw [hp]; rfl) (by rw [walk_cons_some hi, hq])

end Walk

/-- The tables `live` and `root` form a trie of depth `d`.  `mk` is how an entry
    pointing at a table is written. -/
structure IsTrie (ptr : W → Option α) (mk : α → W) (h : α → ι → W) (root : α) (d : Nat)
    (live : List α) : Prop where
  unique : ∀ p q a, p.length ≤ d → q.length ≤ d →
    walk ptr h root p = some a → walk ptr h root q = some a → p = q
  mem_live : ∀ a, a ∈ live ↔ ∃ p, p ≠ [] ∧ p.length ≤ d ∧ walk ptr h root p = some a
  canonical : ∀ p a i b, p.length < d → walk ptr h root p = some a →
    ptr (h a i) = some b → h a i = mk b
  nodup : live.Nodup

namespace IsTrie

variable {ptr : W → Option α} {mk : α → W} {h h' : α → ι → W} {root a b : α} {d : Nat}
  {live : List α} {p q : List ι} {i : ι} {w : W}

theorem root_not_mem (t : IsTrie ptr mk h root d live) : root ∉ live := by
  intro hroot
  obtain ⟨p, hne, hlen, hp⟩ := (t.mem_live root).mp hroot
  exact hne (t.unique p [] root hlen (Nat.zero_le d) hp rfl)

/-- Every table on a path is the root or in use. -/
theorem reached (t : IsTrie ptr mk h root d live) (hlen : p.length ≤ d)
    (hp : walk ptr h root p = some a) : a = root ∨ a ∈ live := by
  by_cases hne : p = []
  · subst hne; exact Or.inl (Option.some.inj hp).symm
  · exact Or.inr ((t.mem_live a).mpr ⟨p, hne, hlen, hp⟩)

/-- An empty root is a trie with no other table. -/
theorem empty (hempty : ∀ i, ptr (h root i) = none) : IsTrie ptr mk h root d [] := by
  have hnone : ∀ p a, walk ptr h root p = some a → p = [] := by
    intro p a hp
    cases p with
    | nil => rfl
    | cons i p => rw [walk_cons_none (hempty i)] at hp; cases hp
  refine ⟨?_, ?_, ?_, List.nodup_nil⟩
  · intro p q a _ _ hp hq
    rw [hnone p a hp, hnone q a hq]
  · intro a
    simp only [List.not_mem_nil, false_iff]
    rintro ⟨p, hne, _, hp⟩
    exact hne (hnone p a hp)
  · intro p a i b _ hp hi
    obtain rfl := hnone p a hp
    obtain rfl := Option.some.inj hp
    rw [hempty i] at hi; cases hi

/-- A heap that agrees on the tables of the trie holds the same trie. -/
theorem walk_eq_of_agree (t : IsTrie ptr mk h root d live)
    (hroot : ∀ i, h' root i = h root i) (hlive : ∀ a ∈ live, ∀ i, h' a i = h a i)
    (hlen : p.length ≤ d + 1) : walk ptr h' root p = walk ptr h root p := by
  apply walk_congr
  intro q i r c hp hq
  have hqlen := length_lt_of_split hp
  rcases t.reached (by omega) hq with rfl | hc
  · exact hroot i
  · exact hlive c hc i

/-- A heap with the same walks, and the same entries above the leaves, holds the same trie. -/
theorem of_same_walks (t : IsTrie ptr mk h root d live)
    (hwalk : ∀ p : List ι, p.length ≤ d → walk ptr h' root p = walk ptr h root p)
    (hentry : ∀ p a i, p.length < d → walk ptr h root p = some a → h' a i = h a i) :
    IsTrie ptr mk h' root d live := by
  refine ⟨?unique, ?live, ?canonical, t.nodup⟩
  case unique =>
    intro p q a hp hq hwp hwq
    rw [hwalk p hp] at hwp
    rw [hwalk q hq] at hwq
    exact t.unique p q a hp hq hwp hwq
  case live =>
    intro a
    rw [t.mem_live a]
    constructor
    · rintro ⟨p, hne, hlen, hp⟩
      exact ⟨p, hne, hlen, by rw [hwalk p hlen, hp]⟩
    · rintro ⟨p, hne, hlen, hp⟩
      exact ⟨p, hne, hlen, by rw [← hwalk p hlen, hp]⟩
  case canonical =>
    intro p a i b hlen hp hi
    rw [hwalk p (Nat.le_of_lt hlen)] at hp
    rw [hentry p a i hlen hp] at hi ⊢
    exact t.canonical p a i b hlen hp hi

theorem of_agree (t : IsTrie ptr mk h root d live)
    (hroot : ∀ i, h' root i = h root i) (hlive : ∀ a ∈ live, ∀ i, h' a i = h a i) :
    IsTrie ptr mk h' root d live := by
  apply t.of_same_walks
  · intro p hp
    exact t.walk_eq_of_agree hroot hlive (by omega)
  · intro p a i hlen hp
    rcases t.reached (Nat.le_of_lt hlen) hp with rfl | ha
    · exact hroot i
    · exact hlive a ha i

/-- A table reached by a path is not the new one. -/
theorem ne_of_reached (t : IsTrie ptr mk h root d live) (hroot : b ≠ root) (hfresh : b ∉ live)
    {c : α} (hq : q.length ≤ d) (hc : walk ptr h root q = some c) : c ≠ b := by
  intro hcb
  rcases t.reached hq hc with hcr | hcl
  · exact hroot (hcb ▸ hcr)
  · exact hfresh (hcb ▸ hcl)

/-! ### Linking an empty table -/

variable [DecidableEq ι]

/-- `h'` is `h` with the empty table `b` linked in at slot `i` of `a`. -/
structure Linked (ptr : W → Option α) (mk : α → W) (h h' : α → ι → W) (a : α) (i : ι) (b : α) :
    Prop where
  slot : h' a i = mk b
  empty : ∀ j, ptr (h' b j) = none
  frame : ∀ c j, c ≠ b → ¬(c = a ∧ j = i) → h' c j = h c j

/-- Linking changes one walk: the one that ends at the new table. -/
theorem walk_linked (t : IsTrie ptr mk h root d live) (hmk : ptr (mk b) = some b)
    (hp : walk ptr h root p = some a) (hlen : p.length < d) (habsent : ptr (h a i) = none)
    (hroot : b ≠ root) (hfresh : b ∉ live) (hl : Linked ptr mk h h' a i b)
    (hq : q.length ≤ d + 1) :
    walk ptr h' root q = if q = p ++ [i] then some b else walk ptr h root q := by
  have hprefix : walk ptr h' root p = some a := by
    rw [← hp]
    apply walk_congr
    intro s j r c hsplit hs
    have hslen := length_lt_of_split hsplit
    refine hl.frame c j (t.ne_of_reached hroot hfresh (by omega) hs) ?_
    rintro ⟨rfl, _⟩
    have := t.unique s p c (by omega) (by omega) hs hp
    rw [this] at hslen
    omega
  -- a walk through the new entry: it was refused before, and the new table is empty
  by_cases hthrough : ∃ r, q = p ++ i :: r
  · obtain ⟨r, rfl⟩ := hthrough
    have hold : walk ptr h root (p ++ i :: r) = none := by
      rw [walk_append_of_some hp, walk_cons_none habsent]
    rw [hold, walk_append_of_some hprefix, walk_cons_some (b := b) (by rw [hl.slot, hmk])]
    cases r with
    | nil => simp
    | cons j r => rw [walk_cons_none (hl.empty j)]; simp
  · have hnot : q ≠ p ++ [i] := fun he => hthrough ⟨[], he⟩
    rw [if_neg hnot]
    apply walk_congr
    intro s j r c hsplit hs
    have hslen := length_lt_of_split hsplit
    refine hl.frame c j (t.ne_of_reached hroot hfresh (by omega) hs) ?_
    rintro ⟨rfl, rfl⟩
    have := t.unique s p c (by omega) (by omega) hs hp
    exact hthrough ⟨r, by rw [hsplit, this]⟩

/-- A table of the larger trie is the new one or was there before. -/
theorem reached_linked (t : IsTrie ptr mk h root d live) (hmk : ptr (mk b) = some b)
    (hp : walk ptr h root p = some a) (hlen : p.length < d) (habsent : ptr (h a i) = none)
    (hroot : b ≠ root) (hfresh : b ∉ live) (hl : Linked ptr mk h h' a i b) {c : α}
    (hq : q.length ≤ d) (hc : walk ptr h' root q = some c) :
    (q = p ++ [i] ∧ c = b) ∨ (c ≠ b ∧ walk ptr h root q = some c) := by
  rw [t.walk_linked hmk hp hlen habsent hroot hfresh hl (by omega)] at hc
  by_cases he : q = p ++ [i]
  · rw [if_pos he] at hc
    exact Or.inl ⟨he, (Option.some.inj hc).symm⟩
  · rw [if_neg he] at hc
    exact Or.inr ⟨t.ne_of_reached hroot hfresh hq hc, hc⟩

theorem link (t : IsTrie ptr mk h root d live) (hmk : ptr (mk b) = some b)
    (hp : walk ptr h root p = some a) (hlen : p.length < d) (habsent : ptr (h a i) = none)
    (hroot : b ≠ root) (hfresh : b ∉ live) (hl : Linked ptr mk h h' a i b) :
    IsTrie ptr mk h' root d (b :: live) := by
  have hwalk : ∀ q : List ι, q.length ≤ d + 1 →
      walk ptr h' root q = if q = p ++ [i] then some b else walk ptr h root q :=
    fun q hq => t.walk_linked hmk hp hlen habsent hroot hfresh hl hq
  have hnew : ∀ q c, q.length ≤ d → walk ptr h' root q = some c →
      (q = p ++ [i] ∧ c = b) ∨ (c ≠ b ∧ walk ptr h root q = some c) :=
    fun q c hq hc => t.reached_linked hmk hp hlen habsent hroot hfresh hl hq hc
  refine ⟨?unique, ?live, ?canonical, List.nodup_cons.mpr ⟨hfresh, t.nodup⟩⟩
  case unique =>
    intro q r c hq hr hwq hwr
    rcases hnew q c hq hwq with ⟨rfl, rfl⟩ | ⟨hcb, hq'⟩
    · rcases hnew r c hr hwr with ⟨rfl, _⟩ | ⟨hcb, _⟩
      · rfl
      · exact absurd rfl hcb
    · rcases hnew r c hr hwr with ⟨_, hcb'⟩ | ⟨_, hr'⟩
      · exact absurd hcb' hcb
      · exact t.unique q r c hq hr hq' hr'
  case live =>
    intro c
    rw [List.mem_cons, t.mem_live c]
    constructor
    · rintro (rfl | ⟨q, hne, hq, hwq⟩)
      · refine ⟨p ++ [i], by simp, by rw [length_snoc]; omega, ?_⟩
        rw [hwalk _ (by rw [length_snoc]; omega), if_pos rfl]
      · refine ⟨q, hne, hq, ?_⟩
        rw [hwalk q (by omega), if_neg, hwq]
        rintro rfl
        rw [walk_snoc hp, habsent] at hwq
        cases hwq
    · rintro ⟨q, hne, hq, hwq⟩
      rcases hnew q c hq hwq with ⟨_, rfl⟩ | ⟨_, hwq'⟩
      · exact Or.inl rfl
      · exact Or.inr ⟨q, hne, hq, hwq'⟩
  case canonical =>
    intro q c j e hq hwq hj
    rcases hnew q c (by omega) hwq with ⟨_, rfl⟩ | ⟨hcb, hwq'⟩
    · -- the new table is empty
      rw [hl.empty j] at hj
      cases hj
    · by_cases hslot : c = a ∧ j = i
      · obtain ⟨rfl, rfl⟩ := hslot
        rw [hl.slot] at hj ⊢
        rw [hmk] at hj
        rw [Option.some.inj hj]
      · rw [hl.frame c j hcb hslot] at hj ⊢
        exact t.canonical q c j e hq hwq' hj

/-! ### Writing a leaf -/

/-- Writing a leaf entry changes one walk: the one through that entry. -/
theorem walk_setLeaf (t : IsTrie ptr mk h root d live) (hp : walk ptr h root p = some a)
    (hlen : p.length = d) (hslot : h' a i = w)
    (hframe : ∀ c j, ¬(c = a ∧ j = i) → h' c j = h c j) (hq : q.length ≤ d + 1) :
    walk ptr h' root q = if q = p ++ [i] then ptr w else walk ptr h root q := by
  -- a walk that does not pass the entry meets only entries that are kept
  have hbelow : ∀ r : List ι, (∀ s, r ≠ p ++ i :: s) → r.length ≤ d + 1 →
      walk ptr h' root r = walk ptr h root r := by
    intro r hr hrlen
    apply walk_congr
    intro s j u c hsplit hs
    have hslen := length_lt_of_split hsplit
    apply hframe
    rintro ⟨rfl, rfl⟩
    have := t.unique s p c (by omega) (by omega) hs hp
    exact hr u (by rw [hsplit, this])
  by_cases he : q = p ++ [i]
  · have hprefix : walk ptr h' root p = some a := by
      rw [← hp]
      apply hbelow p _ (by omega)
      intro s hs
      have := length_lt_of_split hs
      omega
    rw [if_pos he, he, walk_snoc hprefix, hslot]
  · rw [if_neg he]
    apply hbelow q _ hq
    intro s hs
    apply he
    have hlen' := congrArg List.length hs
    simp only [List.length_append, List.length_cons] at hlen'
    have : s = [] := List.length_eq_zero_iff.mp (by omega)
    rw [hs, this]

theorem setLeaf (t : IsTrie ptr mk h root d live) (hp : walk ptr h root p = some a)
    (hlen : p.length = d) (hframe : ∀ c j, ¬(c = a ∧ j = i) → h' c j = h c j) :
    IsTrie ptr mk h' root d live := by
  apply t.of_same_walks
  · intro q hq
    rw [t.walk_setLeaf hp hlen rfl hframe (by omega), if_neg]
    rintro rfl
    rw [length_snoc] at hq
    omega
  · -- the changed entry is in a table at the leaves
    intro q c j hq hwq
    have hca : c ≠ a := by
      rintro rfl
      have := t.unique q p c (by omega) (by omega) hwq hp
      rw [this] at hq
      omega
    exact hframe c j fun hc => hca hc.1

end IsTrie

/-! ## Visiting every table -/

/-- What a traversal does with the heap: read an entry, release a table. -/
inductive Visit (ι α : Type) where
  | read (a : α) (i : ι)
  | release (a : α)

/-- Post-order traversal: read the slots `slots` of `a` in order, descend into
    each table that is present and release it on the way out.  `d` levels of
    tables hang below `a`. -/
def traversal (ptr : W → Option α) (h : α → ι → W) (slots : List ι) : Nat → α → List (Visit ι α)
  | 0, _ => []
  | d + 1, a => slots.flatMap fun i =>
      .read a i :: match ptr (h a i) with
        | none => []
        | some b => traversal ptr h slots d b ++ [.release b]

def Visit.released? : Visit ι α → Option α
  | .read _ _ => none
  | .release a => some a

/-- The tables a traversal releases, in order. -/
def released (vs : List (Visit ι α)) : List α := vs.filterMap Visit.released?

section Traversal

variable {ptr : W → Option α} {h : α → ι → W} {slots : List ι} {a b : α} {d : Nat} {i : ι}

/-- `UniqueBelow d a`: no two paths of length at most `d` from `a` meet. -/
def UniqueBelow (ptr : W → Option α) (h : α → ι → W) (d : Nat) (a : α) : Prop :=
  ∀ p q b, p.length ≤ d → q.length ≤ d →
    walk ptr h a p = some b → walk ptr h a q = some b → p = q

theorem UniqueBelow.child (u : UniqueBelow ptr h (d + 1) a) (hi : ptr (h a i) = some b) :
    UniqueBelow ptr h d b := by
  intro p q c hp hq hwp hwq
  have := u (i :: p) (i :: q) c (by simpa using hp) (by simpa using hq)
    (by rw [walk_cons_some hi, hwp]) (by rw [walk_cons_some hi, hwq])
  exact (List.cons.inj this).2

theorem mem_traversal_succ {v : Visit ι α} :
    v ∈ traversal ptr h slots (d + 1) a ↔ ∃ i ∈ slots, v = .read a i ∨
      ∃ b, ptr (h a i) = some b ∧ (v ∈ traversal ptr h slots d b ∨ v = .release b) := by
  simp only [traversal, List.mem_flatMap, List.mem_cons]
  constructor
  · rintro ⟨i, hi, rfl | hv⟩
    · exact ⟨i, hi, Or.inl rfl⟩
    · cases hb : ptr (h a i) with
      | none => simp [hb] at hv
      | some b =>
        simp only [hb, List.mem_append, List.mem_singleton] at hv
        exact ⟨i, hi, Or.inr ⟨b, hb, hv⟩⟩
  · rintro ⟨i, hi, rfl | ⟨b, hb, hv⟩⟩
    · exact ⟨i, hi, Or.inl rfl⟩
    · refine ⟨i, hi, Or.inr ?_⟩
      simp only [hb, List.mem_append, List.mem_singleton]
      exact hv

/-- A traversal reads tables above the last level. -/
theorem walk_of_read {c : α} {j : ι} (hv : Visit.read c j ∈ traversal ptr h slots d a) :
    ∃ p, p.length < d ∧ walk ptr h a p = some c := by
  induction d generalizing a with
  | zero => simp [traversal] at hv
  | succ d ih =>
    obtain ⟨i, _, heq | ⟨b, hb, hv | heq⟩⟩ := mem_traversal_succ.mp hv
    · obtain ⟨rfl, rfl⟩ := Visit.read.inj heq
      exact ⟨[], by simp, rfl⟩
    · obtain ⟨p, hp, hw⟩ := ih hv
      exact ⟨i :: p, by simpa using hp, by rw [walk_cons_some hb, hw]⟩
    · cases heq

/-- A traversal releases exactly the tables below `a`. -/
theorem release_mem_iff {c : α} (hslots : ∀ i, i ∈ slots) :
    Visit.release c ∈ traversal ptr h slots d a ↔
      ∃ p, p ≠ [] ∧ p.length ≤ d ∧ walk ptr h a p = some c := by
  induction d generalizing a with
  | zero =>
    simp only [traversal, List.not_mem_nil, false_iff]
    rintro ⟨p, hne, hlen, _⟩
    exact hne (List.length_eq_zero_iff.mp (by omega))
  | succ d ih =>
    rw [mem_traversal_succ]
    constructor
    · rintro ⟨i, _, heq | ⟨b, hb, hv | heq⟩⟩
      · cases heq
      · obtain ⟨p, _, hp, hw⟩ := ih.mp hv
        exact ⟨i :: p, by simp, by simpa using hp, by rw [walk_cons_some hb, hw]⟩
      · obtain rfl := Visit.release.inj heq
        exact ⟨[i], by simp, by simp, by rw [walk_cons_some hb, walk_nil]⟩
    · rintro ⟨p, hne, hlen, hw⟩
      cases p with
      | nil => exact absurd rfl hne
      | cons i p =>
        cases hb : ptr (h a i) with
        | none => rw [walk_cons_none hb] at hw; cases hw
        | some b =>
          rw [walk_cons_some hb] at hw
          refine ⟨i, hslots i, Or.inr ⟨b, hb, ?_⟩⟩
          -- the table of the slot itself, or one below it
          by_cases hp : p = []
          · subst hp
            exact Or.inr (by rw [Option.some.inj hw])
          · exact Or.inl (ih.mpr ⟨p, hp, by simpa using hlen, hw⟩)

theorem mem_released {c : α} {vs : List (Visit ι α)} : c ∈ released vs ↔ Visit.release c ∈ vs := by
  simp only [released, List.mem_filterMap]
  constructor
  · rintro ⟨v, hv, hc⟩
    cases v with
    | read => cases hc
    | release b => rwa [← Option.some.inj hc]
  · intro hc
    exact ⟨_, hc, rfl⟩

/-- `v` may come before `v'`: a table is not used again once it is released. -/
def Visit.Before (v v' : Visit ι α) : Prop :=
  ∀ b, v = .release b → v' ≠ .release b ∧ ∀ i, v' ≠ .read b i

/-- The visits of one slot of `a`. -/
def slotVisits (ptr : W → Option α) (h : α → ι → W) (slots : List ι) (d : Nat) (a : α) (i : ι) :
    List (Visit ι α) :=
  .read a i :: match ptr (h a i) with
    | none => []
    | some b => traversal ptr h slots d b ++ [.release b]

theorem traversal_succ :
    traversal ptr h slots (d + 1) a = slots.flatMap (slotVisits ptr h slots d a) := rfl

/-- Where a visit of slot `i` takes place: at `a`, or at the end of a path through `i`. -/
theorem slotVisits_path {v : Visit ι α} (hslots : ∀ i, i ∈ slots)
    (hv : v ∈ slotVisits ptr h slots d a i) :
    v = .read a i ∨ ∃ p c, p.length ≤ d ∧ walk ptr h a (i :: p) = some c ∧
      (v = .release c ∨ ∃ j, v = .read c j ∧ p.length < d) := by
  simp only [slotVisits, List.mem_cons] at hv
  rcases hv with rfl | hv
  · exact Or.inl rfl
  · right
    cases hb : ptr (h a i) with
    | none => simp [hb] at hv
    | some b =>
      simp only [hb, List.mem_append, List.mem_singleton] at hv
      rcases hv with hv | rfl
      · cases v with
        | read c j =>
          obtain ⟨p, hp, hw⟩ := walk_of_read hv
          exact ⟨p, c, by omega, by rw [walk_cons_some hb, hw], Or.inr ⟨j, rfl, hp⟩⟩
        | release c =>
          obtain ⟨p, _, hp, hw⟩ := (release_mem_iff hslots).mp hv
          exact ⟨p, c, hp, by rw [walk_cons_some hb, hw], Or.inl rfl⟩
      · exact ⟨[], b, Nat.zero_le d, by rw [walk_cons_some hb, walk_nil], Or.inl rfl⟩

/-- No table is read or released after its release. -/
theorem traversal_ordered (hslots : ∀ i, i ∈ slots) (hnodup : slots.Nodup)
    (u : UniqueBelow ptr h d a) : (traversal ptr h slots d a).Pairwise Visit.Before := by
  induction d generalizing a with
  | zero => exact List.Pairwise.nil
  | succ d ih =>
    rw [traversal_succ, List.pairwise_flatMap]
    refine ⟨fun i _ => ?_, hnodup.imp fun {i j} hij v hv v' hv' c hc => ?_⟩
    · -- inside one slot: the subtree of `b`, then `b` itself
      simp only [slotVisits]
      refine List.pairwise_cons.mpr ⟨fun _ _ _ => nofun, ?_⟩
      cases hb : ptr (h a i) with
      | none => exact List.Pairwise.nil
      | some b =>
        refine List.pairwise_append.mpr ⟨ih (u.child hb), List.pairwise_singleton _ _, ?_⟩
        intro v hv v' hv' c hc
        subst hc
        obtain rfl := List.mem_singleton.mp hv'
        refine ⟨fun heq => ?_, fun _ => nofun⟩
        obtain rfl := Visit.release.inj heq
        obtain ⟨p, hne, hp, hw⟩ := (release_mem_iff hslots).mp hv
        exact hne ((u.child hb) p [] b hp (Nat.zero_le d) hw rfl)
    · -- across slots: the two paths differ in their first step
      subst hc
      rcases slotVisits_path hslots hv with heq | ⟨p, c', hp, hw, hv⟩
      · cases heq
      have hc : c' = c := by
        rcases hv with heq | ⟨_, heq, _⟩
        · exact (Visit.release.inj heq).symm
        · cases heq
      subst hc
      have hother : ∀ q, q.length ≤ d → walk ptr h a (j :: q) ≠ some c' := by
        intro q hq hwq
        have := u (i :: p) (j :: q) c' (by simpa using hp) (by simpa using hq) hw hwq
        exact hij (List.cons.inj this).1
      rcases slotVisits_path hslots hv' with rfl | ⟨q, e, hq, hwq, hv'⟩
      · refine ⟨nofun, fun k heq => ?_⟩
        obtain ⟨rfl, _⟩ := Visit.read.inj heq
        have := u (i :: p) [] a (by simpa using hp) (Nat.zero_le _) hw rfl
        cases this
      · rcases hv' with rfl | ⟨k, rfl, _⟩
        · refine ⟨fun heq => ?_, fun _ => nofun⟩
          obtain rfl := Visit.release.inj heq
          exact hother q hq hwq
        · refine ⟨nofun, fun k' heq => ?_⟩
          obtain ⟨rfl, _⟩ := Visit.read.inj heq
          exact hother q hq hwq

theorem nodup_released_of_ordered {vs : List (Visit ι α)} (h : vs.Pairwise Visit.Before) :
    (released vs).Nodup := by
  refine List.Pairwise.filterMap Visit.released? ?_ h
  intro v v' hbefore b hb b' hb' heq
  cases v with
  | read => cases hb
  | release c =>
    cases v' with
    | read => cases hb'
    | release c' =>
      obtain rfl := Option.some.inj hb
      obtain rfl := Option.some.inj hb'
      exact (hbefore c rfl).1 (by rw [heq])

/-- A traversal of a trie releases each table in use once, and no other. -/
theorem IsTrie.released_perm [DecidableEq α] {mk : α → W} {root : α} {live : List α}
    (t : IsTrie ptr mk h root d live) (hslots : ∀ i, i ∈ slots) (hnodup : slots.Nodup) :
    (released (traversal ptr h slots d root)).Perm live := by
  have hordered := traversal_ordered hslots hnodup (u := t.unique)
  rw [List.perm_ext_iff_of_nodup (nodup_released_of_ordered hordered) t.nodup]
  intro c
  rw [mem_released, release_mem_iff hslots, t.mem_live c]

end Traversal

end MidnightOS.Lib.HeapTrie
