import MidnightOS.Lib.FallibleState

/-! # Runs that end alike

`Agree R x y` says that `x` and `y`, run from states that `R` relates, end alike:
either both return the same value in states that `R` relates, or both stop with the
same error.  There is one rule for each way of building a program.
-/

namespace MidnightOS.Lib

variable {ε σ τ α β : Type}

inductive SameEnd (R : σ → τ → Prop) :
    EStateM.Result ε σ α → EStateM.Result ε τ α → Prop where
  | ok (a : α) {s : σ} {t : τ} (h : R s t) : SameEnd R (.ok a s) (.ok a t)
  | error (e : ε) (s : σ) (t : τ) : SameEnd R (.error e s) (.error e t)

def Agree (R : σ → τ → Prop) (x : EStateM ε σ α) (y : EStateM ε τ α) : Prop :=
  ∀ s t, R s t → SameEnd R (x s) (y t)

section Rules

variable {R : σ → τ → Prop}

theorem agree_pure (a : α) : Agree R (pure a : EStateM ε σ α) (pure a) :=
  fun _ _ h => .ok a h

theorem agree_throw (e : ε) : Agree R (throw e : EStateM ε σ α) (throw e) :=
  fun s t _ => .error e s t

theorem agree_bind {x : EStateM ε σ α} {y : EStateM ε τ α} {f : α → EStateM ε σ β}
    {g : α → EStateM ε τ β} (hx : Agree R x y) (hf : ∀ a, Agree R (f a) (g a)) :
    Agree R (x >>= f) (y >>= g) := by
  intro s t h
  have hend := hx s t h
  rw [bind_apply, bind_apply]
  cases hs : x s with
  | ok a s' =>
    cases ht : y t with
    | ok b t' =>
      rw [hs, ht] at hend
      cases hend with
      | ok _ h' => exact hf a s' t' h'
    | error e t' => rw [hs, ht] at hend; cases hend
  | error e s' =>
    cases ht : y t with
    | ok b t' => rw [hs, ht] at hend; cases hend
    | error e' t' =>
      rw [hs, ht] at hend
      cases hend with
      | error => exact .error e s' t'

theorem agree_ite {c : Prop} [Decidable c] {x x' : EStateM ε σ α} {y y' : EStateM ε τ α}
    (hx : c → Agree R x y) (hy : ¬c → Agree R x' y') :
    Agree R (if c then x else x') (if c then y else y') := by
  by_cases h : c
  · rw [if_pos h, if_pos h]
    exact hx h
  · rw [if_neg h, if_neg h]
    exact hy h

theorem agree_modify {f : σ → σ} {g : τ → τ} (h : ∀ s t, R s t → R (f s) (g t)) :
    Agree R (modify f : EStateM ε σ PUnit) (modify g) :=
  fun s t hst => .ok () (h s t hst)

end Rules

end MidnightOS.Lib
