import Mathlib.Algebra.Group.Nat.Defs
import Mathlib.Data.Multiset.AddSub

/-! # Ledgers of resources

A ledger lists which resources were acquired and released, newest entry first.
`settle` plays it from what was held before; it fails at the release of
something that is not held.  So `settle l 0 = some 0` says that everything
acquired was released exactly once, and nothing else was released.
-/

namespace MidnightOS.Lib

inductive Entry (κ : Type) where
  | acquire (k : κ)
  | release (k : κ)

section Ledger

variable {κ : Type} [DecidableEq κ]

/-- What is held after the entries, if no entry releases what is not held. -/
def settle : List (Entry κ) → Multiset κ → Option (Multiset κ)
  | [], held => some held
  | .acquire k :: l, held => (settle l held).map (k ::ₘ ·)
  | .release k :: l, held =>
    (settle l held).bind fun now => if k ∈ now then some (now.erase k) else none

theorem settle_acquire {k : κ} {l : List (Entry κ)} {held now : Multiset κ}
    (h : settle l held = some now) : settle (.acquire k :: l) held = some (k ::ₘ now) := by
  simp [settle, h]

theorem settle_release {k : κ} {l : List (Entry κ)} {held now : Multiset κ}
    (h : settle l held = some (k ::ₘ now)) : settle (.release k :: l) held = some now := by
  simp [settle, h]

theorem settle_append (l' l : List (Entry κ)) (held : Multiset κ) :
    settle (l' ++ l) held = (settle l held).bind (settle l') := by
  induction l' with
  | nil =>
    rw [List.nil_append]
    cases settle l held with
    | none => rfl
    | some now => rfl
  | cons entry l' ih =>
    cases entry with
    | acquire k =>
      rw [List.cons_append, settle, ih]
      cases settle l held with
      | none => rfl
      | some now => rfl
    | release k =>
      rw [List.cons_append, settle, ih]
      cases settle l held with
      | none => rfl
      | some now => rfl

/-- What was held besides does not matter. -/
theorem settle_frame {l : List (Entry κ)} {held now : Multiset κ} (other : Multiset κ)
    (h : settle l held = some now) : settle l (held + other) = some (now + other) := by
  induction l generalizing now with
  | nil =>
    cases h
    rfl
  | cons entry l ih =>
    cases entry with
    | acquire k =>
      obtain ⟨before, hbefore, rfl⟩ := Option.map_eq_some_iff.mp h
      simp [settle, ih hbefore]
    | release k =>
      obtain ⟨before, hbefore, hnow⟩ := Option.bind_eq_some_iff.mp h
      split at hnow
      · next holds =>
        cases hnow
        simp [settle, ih hbefore, holds, Multiset.erase_add_left_pos]
      · cases hnow

/-- The acquired resources with property `p`, counted with repetitions. -/
def countAcquired (p : κ → Prop) [DecidablePred p] : List (Entry κ) → Nat
  | [] => 0
  | .acquire k :: l => countAcquired p l + if p k then 1 else 0
  | .release _ :: l => countAcquired p l

/-- The released resources with property `p`, counted with repetitions. -/
def countReleased (p : κ → Prop) [DecidablePred p] : List (Entry κ) → Nat
  | [] => 0
  | .acquire _ :: l => countReleased p l
  | .release k :: l => countReleased p l + if p k then 1 else 0

/-- Nothing is lost: what was held and what was acquired is held or was released. -/
theorem settle_count {p : κ → Prop} [DecidablePred p] {l : List (Entry κ)}
    {held now : Multiset κ} (h : settle l held = some now) :
    held.countP p + countAcquired p l = now.countP p + countReleased p l := by
  induction l generalizing now with
  | nil =>
    cases h
    rfl
  | cons entry l ih =>
    cases entry with
    | acquire k =>
      obtain ⟨before, hbefore, rfl⟩ := Option.map_eq_some_iff.mp h
      have rest := ih hbefore
      rw [Multiset.countP_cons, countAcquired, countReleased]
      omega
    | release k =>
      obtain ⟨before, hbefore, hnow⟩ := Option.bind_eq_some_iff.mp h
      split at hnow
      · next holds =>
        cases hnow
        have rest := ih hbefore
        -- what is released was held: put it back and count
        rw [← Multiset.cons_erase holds, Multiset.countP_cons] at rest
        rw [countAcquired, countReleased]
        omega
      · cases hnow

end Ledger

end MidnightOS.Lib
