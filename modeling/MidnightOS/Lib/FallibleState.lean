import Mathlib.Algebra.Group.Nat.Defs
import Mathlib.Tactic.Common

/-! # Programs with a state and early exits

`EStateM ε σ` programs keep the state when they stop early, which is how a C
function that returns an error code behaves.  `wp x Q E s` says that `x`, run
from `s`, ends normally in `Q` or stops early in `E`.  There is one rewriting
rule for each way of building a program, and one invariant rule for each of the
two counted loops.
-/

namespace MidnightOS.Lib

variable {ε σ α β : Type}

/-- `x` run from `s` ends in `Q`, or stops early in `E`. -/
def wp (x : EStateM ε σ α) (Q : α → σ → Prop) (E : ε → σ → Prop) (s : σ) : Prop :=
  match x s with
  | .ok a s' => Q a s'
  | .error e s' => E e s'

/-! ## Rules for the constructors -/

@[simp] theorem wp_pure {a : α} {Q : α → σ → Prop} {E : ε → σ → Prop} {s : σ} :
    wp (pure a) Q E s ↔ Q a s := Iff.rfl

@[simp] theorem wp_throw {e : ε} {Q : α → σ → Prop} {E : ε → σ → Prop} {s : σ} :
    wp (throw e) Q E s ↔ E e s := Iff.rfl

@[simp] theorem wp_get {Q : σ → σ → Prop} {E : ε → σ → Prop} {s : σ} :
    wp get Q E s ↔ Q s s := Iff.rfl

@[simp] theorem wp_set {t : σ} {Q : PUnit → σ → Prop} {E : ε → σ → Prop} {s : σ} :
    wp (set t) Q E s ↔ Q () t := Iff.rfl

@[simp] theorem wp_modify {f : σ → σ} {Q : PUnit → σ → Prop} {E : ε → σ → Prop} {s : σ} :
    wp (modify f) Q E s ↔ Q () (f s) := Iff.rfl

theorem bind_apply (x : EStateM ε σ α) (f : α → EStateM ε σ β) (s : σ) :
    (x >>= f) s = match x s with
      | .ok a s' => f a s'
      | .error e s' => .error e s' := rfl

@[simp] theorem wp_bind {x : EStateM ε σ α} {f : α → EStateM ε σ β} {Q : β → σ → Prop}
    {E : ε → σ → Prop} {s : σ} :
    wp (x >>= f) Q E s ↔ wp x (fun a s' => wp (f a) Q E s') E s := by
  simp only [wp, bind_apply]
  cases x s with
  | ok a s' => rfl
  | error e s' => rfl

theorem wp_ite {c : Prop} [Decidable c] {x y : EStateM ε σ α} {Q : α → σ → Prop}
    {E : ε → σ → Prop} {s : σ} :
    wp (if c then x else y) Q E s ↔ (c → wp x Q E s) ∧ (¬c → wp y Q E s) := by
  by_cases h : c
  · simp [h]
  · simp [h]

/-- Consequence: a weaker end condition, on both exits. -/
theorem wp_mono {x : EStateM ε σ α} {Q Q' : α → σ → Prop} {E E' : ε → σ → Prop} {s : σ}
    (h : wp x Q E s) (hQ : ∀ a s', Q a s' → Q' a s') (hE : ∀ e s', E e s' → E' e s') :
    wp x Q' E' s := by
  unfold wp at h ⊢
  cases hx : x s with
  | ok a s' => rw [hx] at h; exact hQ a s' h
  | error e s' => rw [hx] at h; exact hE e s' h

/-- Conjunction: two descriptions of the same run hold together. -/
theorem wp_and {x : EStateM ε σ α} {Q Q' : α → σ → Prop} {E E' : ε → σ → Prop} {s : σ}
    (h : wp x Q E s) (h' : wp x Q' E' s) :
    wp x (fun a t => Q a t ∧ Q' a t) (fun e t => E e t ∧ E' e t) s := by
  unfold wp at h h' ⊢
  cases hx : x s with
  | ok a s' => rw [hx] at h h'; exact ⟨h, h'⟩
  | error e s' => rw [hx] at h h'; exact ⟨h, h'⟩

theorem wp_ok {x : EStateM ε σ α} {Q : α → σ → Prop} {E : ε → σ → Prop} {s s' : σ} {a : α}
    (h : wp x Q E s) (hx : x s = .ok a s') : Q a s' := by
  simpa only [wp, hx] using h

theorem wp_error {x : EStateM ε σ α} {Q : α → σ → Prop} {E : ε → σ → Prop} {s s' : σ} {e : ε}
    (h : wp x Q E s) (hx : x s = .error e s') : E e s' := by
  simpa only [wp, hx] using h

theorem wp_of_ok {x : EStateM ε σ α} {Q : α → σ → Prop} {E : ε → σ → Prop} {s s' : σ} {a : α}
    (hx : x s = .ok a s') (h : Q a s') : wp x Q E s := by
  simpa only [wp, hx] using h

theorem wp_of_error {x : EStateM ε σ α} {Q : α → σ → Prop} {E : ε → σ → Prop} {s s' : σ} {e : ε}
    (hx : x s = .error e s') (h : E e s') : wp x Q E s := by
  simpa only [wp, hx] using h

theorem wp_run (x : EStateM ε σ α) (s : σ) :
    wp x (fun a t => x s = .ok a t) (fun e t => x s = .error e t) s := by
  cases h : x s with
  | ok a t => exact wp_of_ok h rfl
  | error e t => exact wp_of_error h rfl

/-- The state `x` leaves behind when run from `s`, whichever way it ends. -/
def after (x : EStateM ε σ α) (s : σ) : σ :=
  match x s with
  | .ok _ s' => s'
  | .error _ s' => s'

theorem after_of_ok {x : EStateM ε σ α} {s s' : σ} {a : α} (h : x s = .ok a s') :
    after x s = s' := by
  rw [after, h]

theorem after_of_error {x : EStateM ε σ α} {s s' : σ} {e : ε} (h : x s = .error e s') :
    after x s = s' := by
  rw [after, h]

/-- What both ends of a run guarantee, its last state satisfies. -/
theorem wp_after {x : EStateM ε σ α} {Q : α → σ → Prop} {E : ε → σ → Prop} {P : σ → Prop} {s : σ}
    (h : wp x Q E s) (hQ : ∀ a s', Q a s' → P s') (hE : ∀ e s', E e s' → P s') :
    P (after x s) := by
  unfold wp at h
  unfold after
  cases hx : x s with
  | ok a s' => rw [hx] at h; exact hQ a s' h
  | error e s' => rw [hx] at h; exact hE e s' h

/-- `x` ends normally when run from `s`. -/
def succeeds (x : EStateM ε σ α) (s : σ) : Bool :=
  match x s with
  | .ok _ _ => true
  | .error _ _ => false

theorem eq_ok_of_succeeds {x : EStateM ε σ Unit} {s : σ} (h : succeeds x s = true) :
    x s = .ok () (after x s) := by
  unfold succeeds at h
  unfold after
  cases hx : x s with
  | ok a s' => rfl
  | error e s' => rw [hx] at h; cases h

theorem succeeds_of_ok {x : EStateM ε σ α} {s s' : σ} {a : α} (h : x s = .ok a s') :
    succeeds x s = true := by
  rw [succeeds, h]

/-- What `x` returns when run from `s`, if it does. -/
def resultOf (x : EStateM ε σ α) (s : σ) : Option α :=
  match x s with
  | .ok a _ => some a
  | .error _ _ => none

theorem eq_ok_of_resultOf {x : EStateM ε σ α} {s : σ} {a : α} (h : resultOf x s = some a) :
    x s = .ok a (after x s) := by
  unfold resultOf at h
  unfold after
  cases hx : x s with
  | ok a' s' => rw [hx] at h; cases h; rfl
  | error e s' => rw [hx] at h; cases h

/-- Why `x` stops early when run from `s`, if it does. -/
def stopOf (x : EStateM ε σ α) (s : σ) : Option ε :=
  match x s with
  | .ok _ _ => none
  | .error e _ => some e

theorem eq_error_of_stopOf {x : EStateM ε σ α} {s : σ} {e : ε} (h : stopOf x s = some e) :
    x s = .error e (after x s) := by
  unfold stopOf at h
  unfold after
  cases hx : x s with
  | ok a s' => rw [hx] at h; cases h
  | error e' s' => rw [hx] at h; cases h; rfl

theorem eq_ok_of_wp {x : EStateM ε σ α} {s : σ} {a : α}
    (h : wp x (fun b _ => b = a) (fun _ _ => False) s) : x s = .ok a (after x s) := by
  unfold wp at h
  unfold after
  cases hx : x s with
  | ok b s' => rw [hx] at h; rw [show b = a from h]
  | error e s' => rw [hx] at h; exact absurd h id

theorem exists_ok_of_wp {x : EStateM ε σ α} {Q : α → σ → Prop} {s : σ}
    (h : wp x Q (fun _ _ => False) s) : ∃ a s', x s = .ok a s' ∧ Q a s' := by
  unfold wp at h
  cases hx : x s with
  | ok a s' =>
    rw [hx] at h
    exact ⟨a, s', rfl, h⟩
  | error e s' => rw [hx] at h; exact absurd h id

theorem eq_ok_state_of_wp {x : EStateM ε σ α} {s s' : σ} {a : α}
    (h : wp x (fun b t => b = a ∧ t = s') (fun _ _ => False) s) : x s = .ok a s' := by
  unfold wp at h
  cases hx : x s with
  | ok b t =>
    rw [hx] at h
    rw [h.1, h.2]
  | error e t => rw [hx] at h; exact absurd h id

theorem eq_error_of_wp {x : EStateM ε σ α} {s s' : σ} {e : ε}
    (h : wp x (fun _ _ => False) (fun e' t => e' = e ∧ t = s') s) : x s = .error e s' := by
  unfold wp at h
  cases hx : x s with
  | ok a t => rw [hx] at h; exact absurd h id
  | error e' t =>
    rw [hx] at h
    rw [h.1, h.2]

/-! ## Programs on a part of the state -/

/-- Run `x` on the part that `view` shows, and put back what it leaves there. -/
def focus {τ : Type} (view : τ → σ) (put : σ → τ → τ) (x : EStateM ε σ α) : EStateM ε τ α := fun t =>
  match x (view t) with
  | .ok a s => .ok a (put s t)
  | .error e s => .error e (put s t)

theorem wp_focus {τ : Type} {view : τ → σ} {put : σ → τ → τ} {x : EStateM ε σ α}
    {Q : α → τ → Prop} {E : ε → τ → Prop} {t : τ} :
    wp (focus view put x) Q E t ↔
      wp x (fun a s => Q a (put s t)) (fun e s => E e (put s t)) (view t) := by
  simp only [wp, focus]
  cases x (view t) with
  | ok a s => rfl
  | error e s => rfl

/-! ## Inverting a run -/

theorem bind_eq_ok {x : EStateM ε σ α} {f : α → EStateM ε σ β} {s s'' : σ} {b : β} :
    (x >>= f) s = .ok b s'' ↔ ∃ a s', x s = .ok a s' ∧ f a s' = .ok b s'' := by
  rw [bind_apply]
  cases hx : x s with
  | ok a s' => simp
  | error e s' => simp

theorem bind_of_ok {x : EStateM ε σ α} {f : α → EStateM ε σ β} {s s' : σ} {a : α}
    (h : x s = .ok a s') : (x >>= f) s = f a s' := by
  rw [bind_apply, h]

theorem get_bind (f : σ → EStateM ε σ β) (s : σ) :
    ((get : EStateM ε σ σ) >>= f) s = f s s := rfl

theorem bind_of_error {x : EStateM ε σ α} {f : α → EStateM ε σ β} {s s' : σ} {e : ε}
    (h : x s = .error e s') : (x >>= f) s = .error e s' := by
  rw [bind_apply, h]

/-! ## What a run keeps -/

/-- A run of `x` that ends normally keeps `K`. -/
def Keeps (K : σ → Prop) (x : EStateM ε σ α) : Prop :=
  ∀ s a s', K s → x s = .ok a s' → K s'

section Keeps

variable {K : σ → Prop}

theorem Keeps.pure (a : α) : Keeps K (pure a : EStateM ε σ α) := by
  intro s b s' h hrun
  cases hrun
  exact h

theorem Keeps.throw (e : ε) : Keeps K (throw e : EStateM ε σ α) := by
  intro s b s' h hrun
  cases hrun

theorem Keeps.bind {x : EStateM ε σ α} {f : α → EStateM ε σ β} (hx : Keeps K x)
    (hf : ∀ a, Keeps K (f a)) : Keeps K (x >>= f) := by
  intro s b s'' h hrun
  obtain ⟨a, s', hfirst, hsecond⟩ := bind_eq_ok.mp hrun
  exact hf a s' b s'' (hx s a s' h hfirst) hsecond

theorem Keeps.map {x : EStateM ε σ α} (f : α → β) (hx : Keeps K x) : Keeps K (f <$> x) := by
  rw [map_eq_pure_bind]
  exact hx.bind fun a => Keeps.pure (f a)

theorem Keeps.ite {c : Prop} [Decidable c] {x y : EStateM ε σ α} (hx : Keeps K x)
    (hy : Keeps K y) : Keeps K (if c then x else y) := by
  by_cases h : c
  · rw [if_pos h]
    exact hx
  · rw [if_neg h]
    exact hy

/-- Two ways to the same continuation. -/
theorem Keeps.ite_bind {c : Prop} [Decidable c] {x y : EStateM ε σ α} {f : α → EStateM ε σ β}
    (hx : Keeps K x) (hy : Keeps K y) (hf : ∀ a, Keeps K (f a)) :
    Keeps K (if c then x >>= f else y >>= f) :=
  .ite (hx.bind hf) (hy.bind hf)

theorem Keeps.modify {f : σ → σ} (h : ∀ s, K s → K (f s)) :
    Keeps K (modify f : EStateM ε σ PUnit) := by
  intro s a s' hs hrun
  cases hrun
  exact h s hs

end Keeps

/-! ## Counted loops -/

/-- `for (k = i; k < i + n; ++k) f k`. -/
def forUp (f : Nat → EStateM ε σ Unit) : Nat → Nat → EStateM ε σ Unit
  | _, 0 => pure ()
  | i, n + 1 => do
      f i
      forUp f (i + 1) n

/-- Rounds that do the same make loops that do the same. -/
theorem forUp_congr {f g : Nat → EStateM ε σ Unit} {i n : Nat}
    (h : ∀ k, i ≤ k → k < i + n → f k = g k) : forUp f i n = forUp g i n := by
  induction n generalizing i with
  | zero => rfl
  | succ n ih =>
    have hfirst : f i = g i := h i (Nat.le_refl i) (by omega)
    have hrest : forUp f (i + 1) n = forUp g (i + 1) n :=
      ih fun k hk hk' => h k (by omega) (by omega)
    rw [forUp, forUp, hfirst, hrest]

/-- The invariant rule of `forUp`: what one round preserves, the loop preserves. -/
theorem wp_forUp {f : Nat → EStateM ε σ Unit} {I : Nat → σ → Prop} {E : ε → σ → Prop}
    {i n : Nat} {s : σ}
    (hstep : ∀ k t, i ≤ k → k < i + n → I k t → wp (f k) (fun _ t' => I (k + 1) t') E t)
    (h : I i s) : wp (forUp f i n) (fun _ s' => I (i + n) s') E s := by
  induction n generalizing i s with
  | zero => exact h
  | succ n ih =>
    simp only [forUp, wp_bind]
    refine wp_mono (hstep i s (Nat.le_refl i) (by omega) h) (fun _ t ht => ?_) (fun _ _ he => he)
    have hrest := ih (i := i + 1) (s := t)
      (fun k u hk hk' hI => hstep k u (by omega) (by omega) hI) ht
    rwa [show i + 1 + n = i + (n + 1) by omega] at hrest

end MidnightOS.Lib
