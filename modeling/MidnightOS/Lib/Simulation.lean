import MidnightOS.Lib.FallibleState

/-! # Programs that follow other programs

`x` follows `y` where it does what `y` does, from related states to related states.  The machine
of `x` may lose what that depends on; it says so in a flag that it does not take back, and then
there is nothing to follow.
-/

namespace MidnightOS.Lib

variable {ε σ τ α β : Type}

/-- A run of `x` keeps `B`, whichever way it ends. -/
def Latches (B : σ → Prop) (x : EStateM ε σ α) : Prop :=
  ∀ s, B s → wp x (fun _ => B) (fun _ => B) s

/-- From related states `x` returns what `y` returns and leaves related states, or it stops where
`y` stops, unless it comes to `B`. -/
structure Follows (B : σ → Prop) (R : σ → τ → Prop) (x : EStateM ε σ α) (y : EStateM ε τ α) :
    Prop where
  latches : Latches B x
  follows : ∀ s t, R s t →
    wp x (fun a s' => B s' ∨ ∃ t', y t = .ok a t' ∧ R s' t')
      (fun e s' => B s' ∨ ∃ t', y t = .error e t') s

namespace Follows

variable {B : σ → Prop} {R : σ → τ → Prop}

theorem pure (a : α) : Follows B R (pure a : EStateM ε σ α) (pure a) where
  latches _ h := h
  follows _ t h := .inr ⟨t, rfl, h⟩

theorem throw (e : ε) : Follows B R (throw e : EStateM ε σ α) (throw e) where
  latches _ h := h
  follows _ t _ := .inr ⟨t, rfl⟩

/-- What comes after `B` was reached keeps `B`. -/
theorem bind {x : EStateM ε σ α} {y : EStateM ε τ α} {f : α → EStateM ε σ β}
    {g : α → EStateM ε τ β} (first : Follows B R x y) (rest : ∀ a, Follows B R (f a) (g a)) :
    Follows B R (x >>= f) (y >>= g) where
  latches s h := by
    rw [wp_bind]
    exact wp_mono (first.latches s h) (fun a s' h' => (rest a).latches s' h') (fun _ _ h' => h')
  follows s t h := by
    rw [wp_bind]
    refine wp_mono (first.follows s t h) ?_ ?_
    · rintro a s' (lost | ⟨t', run, related⟩)
      · exact wp_mono ((rest a).latches s' lost) (fun _ _ h' => .inl h') (fun _ _ h' => .inl h')
      · rw [bind_of_ok run]
        exact (rest a).follows s' t' related
    · rintro e s' (lost | ⟨t', run⟩)
      · exact .inl lost
      · exact .inr ⟨t', bind_of_error run⟩

theorem ite {c : Prop} [Decidable c] {x x' : EStateM ε σ α} {y y' : EStateM ε τ α}
    (yes : Follows B R x y) (no : Follows B R x' y') :
    Follows B R (if c then x else x') (if c then y else y') := by
  by_cases h : c
  · rw [if_pos h, if_pos h]
    exact yes
  · rw [if_neg h, if_neg h]
    exact no

/-- A program on a part of the state. -/
theorem focus {σ' τ' : Type} {view : σ' → σ} {put : σ → σ' → σ'} {view' : τ' → τ}
    {put' : τ → τ' → τ'} {R' : σ' → τ' → Prop} {x : EStateM ε σ α} {y : EStateM ε τ α}
    (seen : ∀ s t, R' s t → R (view s) (view' t))
    (back : ∀ s t u v, R' s t → R u v → R' (put u s) (put' v t))
    (shown : ∀ s u, view (put u s) = u) (inner : Follows B R x y) :
    Follows (fun s => B (view s)) R' (Lib.focus view put x) (Lib.focus view' put' y) where
  latches s h := by
    rw [wp_focus]
    refine wp_mono (inner.latches (view s) h) ?_ ?_
    · intro a u hu
      rw [shown]
      exact hu
    · intro e u hu
      rw [shown]
      exact hu
  follows s t h := by
    rw [wp_focus]
    refine wp_mono (inner.follows (view s) (view' t) (seen s t h)) ?_ ?_
    · rintro a u (lost | ⟨v, run, related⟩)
      · rw [shown]
        exact .inl lost
      · refine .inr ⟨put' v t, ?_, back s t u v h related⟩
        rw [Lib.focus, run]
    · rintro e u (lost | ⟨v, run⟩)
      · rw [shown]
        exact .inl lost
      · refine .inr ⟨put' v t, ?_⟩
        rw [Lib.focus, run]

end Follows

end MidnightOS.Lib
