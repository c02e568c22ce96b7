import Mathlib.Logic.Basic

/-!
# Computations in lock step

Two computations agree if they return related values or fail with the same error.  `Agree R` is
this for computations in `Except`, and `AgreeWith T R` for computations with a state, started in
states that the relation `T` relates.  Both relations are kept by `pure`, `throw` and bind, so that
two programs of the same shape agree if their parts do.
-/

namespace Lockstep

universe u

section Except

variable {ε α β γ δ : Type u} {R : α → β → Prop} {S : γ → δ → Prop}

/-- Both computations return, with related values, or both fail, with the same error. -/
inductive Agree (R : α → β → Prop) : Except ε α → Except ε β → Prop where
  | ok {a : α} {b : β} (h : R a b) : Agree R (.ok a) (.ok b)
  | error (e : ε) : Agree R (.error e) (.error e)

theorem Agree.bind {x : Except ε α} {y : Except ε β} {f : α → Except ε γ} {g : β → Except ε δ}
    (h : Agree R x y) (hf : ∀ a b, R a b → Agree S (f a) (g b)) : Agree S (x >>= f) (y >>= g) := by
  cases h with
  | ok h => exact hf _ _ h
  | error e => exact .error e

/-- A test that comes out the same. -/
theorem Agree.ite {x x' : Except ε α} {y y' : Except ε β} {c d : Prop} [Decidable c] [Decidable d]
    (hc : d ↔ c) (h : c → Agree R x y) (h' : ¬c → Agree R x' y') :
    Agree R (if c then x else x') (if d then y else y') := by
  by_cases hcase : c
  · rw [if_pos hcase, if_pos (hc.mpr hcase)]
    exact h hcase
  · rw [if_neg hcase, if_neg (mt hc.mp hcase)]
    exact h' hcase

theorem Agree.of_eq {x : Except ε α} {y : Except ε α} (h : y = x) : Agree Eq x y := by
  rw [h]
  cases x with
  | ok a => exact .ok rfl
  | error e => exact .error e

end Except

section State

variable {ε σ τ α β γ δ : Type u} {T : σ → τ → Prop} {R : α → β → Prop} {S : γ → δ → Prop}

/-- Both results are values, related like the states, or both are the same error. -/
inductive SameResult (T : σ → τ → Prop) (R : α → β → Prop) :
    EStateM.Result ε σ α → EStateM.Result ε τ β → Prop where
  | ok {a : α} {b : β} {s : σ} {t : τ} (hstate : T s t) (h : R a b) :
    SameResult T R (.ok a s) (.ok b t)
  | error {s : σ} {t : τ} (hstate : T s t) (e : ε) : SameResult T R (.error e s) (.error e t)

/-- From related states the two computations have the same results. -/
def AgreeWith (T : σ → τ → Prop) (R : α → β → Prop) (x : EStateM ε σ α) (y : EStateM ε τ β) :
    Prop :=
  ∀ s t, T s t → SameResult T R (x.run s) (y.run t)

theorem AgreeWith.pure {a : α} {b : β} (h : R a b) :
    AgreeWith T R (pure a : EStateM ε σ α) (pure b) :=
  fun _ _ hstate => .ok hstate h

theorem AgreeWith.refl (x : EStateM ε σ α) : AgreeWith Eq Eq x x := by
  rintro s - rfl
  cases x.run s with
  | ok a s' => exact .ok rfl rfl
  | error e s' => exact .error rfl e

theorem AgreeWith.throw (e : ε) : AgreeWith T R (throw e : EStateM ε σ α) (throw e) :=
  fun _ _ hstate => .error hstate e

theorem AgreeWith.modify {f : σ → σ} {g : τ → τ} (h : ∀ s t, T s t → T (f s) (g t)) :
    AgreeWith T Eq (modify f : EStateM ε σ PUnit) (modify g) :=
  fun s t hstate => .ok (h s t hstate) rfl

/-- The second parts need to agree on values that the first part returns. -/
theorem AgreeWith.bind_of_returns {x : EStateM ε σ α} {y : EStateM ε τ β} {f : α → EStateM ε σ γ}
    {g : β → EStateM ε τ δ} (h : AgreeWith T R x y)
    (hf : ∀ a b s s', R a b → x.run s = .ok a s' → AgreeWith T S (f a) (g b)) :
    AgreeWith T S (x >>= f) (y >>= g) := by
  intro s t hstate
  have hrun := h s t hstate
  have hreturns := fun a b s' hab (hx : x s = .ok a s') => hf a b s s' hab hx
  show SameResult T S (EStateM.bind x f s) (EStateM.bind y g t)
  unfold EStateM.bind
  change SameResult T R (x s) (y t) at hrun
  generalize x s = rx at hrun hreturns ⊢
  generalize y t = ry at hrun ⊢
  cases hrun with
  | ok hstate h => exact hreturns _ _ _ h rfl _ _ hstate
  | error hstate e => exact .error hstate e

theorem AgreeWith.bind {x : EStateM ε σ α} {y : EStateM ε τ β} {f : α → EStateM ε σ γ}
    {g : β → EStateM ε τ δ} (h : AgreeWith T R x y)
    (hf : ∀ a b, R a b → AgreeWith T S (f a) (g b)) : AgreeWith T S (x >>= f) (y >>= g) :=
  h.bind_of_returns fun a b _ _ hab _ => hf a b hab

theorem AgreeWith.ite {x x' : EStateM ε σ α} {y y' : EStateM ε τ β} {c d : Prop} [Decidable c]
    [Decidable d] (hc : d ↔ c) (h : c → AgreeWith T R x y) (h' : ¬c → AgreeWith T R x' y') :
    AgreeWith T R (if c then x else x') (if d then y else y') := by
  by_cases hcase : c
  · rw [if_pos hcase, if_pos (hc.mpr hcase)]
    exact h hcase
  · rw [if_neg hcase, if_neg (mt hc.mp hcase)]
    exact h' hcase

/-- If the first computation returns, the second one does. -/
theorem AgreeWith.exists_of_ok {x : EStateM ε σ α} {y : EStateM ε τ β} (h : AgreeWith T R x y)
    {s s' : σ} {t : τ} {a : α} (hstate : T s t) (hx : x.run s = .ok a s') :
    ∃ b t', y.run t = .ok b t' ∧ T s' t' ∧ R a b := by
  have hrun := h s t hstate
  rw [hx] at hrun
  cases hy : y.run t with
  | ok b t' =>
    rw [hy] at hrun
    cases hrun with
    | ok hstate hval => exact ⟨b, t', rfl, hstate, hval⟩
  | error e t' =>
    rw [hy] at hrun
    cases hrun

end State

end Lockstep
