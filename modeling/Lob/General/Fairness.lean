import Mathlib.Algebra.Order.Ring.Nat

/-!
# Progress under fair scheduling

Threads take turns to step on a state, in the order that a schedule gives.  A schedule is fair if
every thread has another turn at any time (`Fair`), and prompt if it has one among any `w` turns
(`Prompt w`).

The rule of the helpful thread (`Progress`): in every state that is not done there is a thread whose
step decreases the rank, and the steps of the others decrease the rank or leave it, and the helpful
thread, as they are.  Then the rank comes to zero under every fair schedule (`Progress.ends`), and
after `w` turns for each unit of the rank under a prompt one (`Progress.ends_within`).
-/

namespace Fairness

variable {σ τ : Type*}

def Fair (sched : ℕ → τ) : Prop := ∀ t n, ∃ k, sched (n + k) = t

/-- Every thread has a turn among any `w` turns. -/
def Prompt (w : ℕ) (sched : ℕ → τ) : Prop := ∀ t n, ∃ k < w, sched (n + k) = t

/-- The state before turn `n`. -/
def run (step : σ → τ → σ) (sched : ℕ → τ) (s : σ) : ℕ → σ
  | 0 => s
  | n + 1 => step (run step sched s n) (sched n)

/-- The rank counts down, and `helpful` says which thread makes it do so. -/
structure Progress (step : σ → τ → σ) (Inv : σ → Prop) (rank : σ → ℕ) (helpful : σ → τ) : Prop where
  keeps : ∀ s t, Inv s → Inv (step s t)
  helps : ∀ s, Inv s → 0 < rank s → rank (step s (helpful s)) < rank s
  waits : ∀ s t, Inv s → rank (step s t) < rank s ∨
    rank (step s t) = rank s ∧ helpful (step s t) = helpful s

variable {step : σ → τ → σ} {Inv : σ → Prop} {rank : σ → ℕ} {helpful : σ → τ} {sched : ℕ → τ}
  {s : σ}

theorem run_add (sched : ℕ → τ) (s : σ) (n m : ℕ) :
    run step sched s (n + m) = run step (fun k => sched (n + k)) (run step sched s n) m := by
  induction m with
  | zero => rfl
  | succ m ih => exact congrArg (fun x => step x (sched (n + m))) ih

theorem Prompt.fair {w : ℕ} (h : Prompt w sched) : Fair sched := fun t n => by
  obtain ⟨k, -, hk⟩ := h t n
  exact ⟨k, hk⟩

theorem Fair.shift (h : Fair sched) (n : ℕ) : Fair fun k => sched (n + k) := fun t m => by
  obtain ⟨k, hk⟩ := h t (n + m)
  exact ⟨k, (congrArg sched (Nat.add_assoc n m k)).symm.trans hk⟩

theorem Prompt.shift {w : ℕ} (h : Prompt w sched) (n : ℕ) : Prompt w fun k => sched (n + k) :=
  fun t m => by
    obtain ⟨k, hlt, hk⟩ := h t (n + m)
    exact ⟨k, hlt, (congrArg sched (Nat.add_assoc n m k)).symm.trans hk⟩

variable (hp : Progress step Inv rank helpful)

include hp

theorem Progress.run_keeps (hs : Inv s) (n : ℕ) : Inv (run step sched s n) := by
  induction n with
  | zero => exact hs
  | succ n ih => exact hp.keeps _ _ ih

theorem Progress.rank_le (hs : Inv s) (n : ℕ) : rank (run step sched s n) ≤ rank s := by
  induction n with
  | zero => exact le_rfl
  | succ n ih =>
    have hstep := hp.waits (run step sched s n) (sched n) (hp.run_keeps hs n)
    change rank (step (run step sched s n) (sched n)) ≤ rank s
    omega

/-- Until the rank has decreased, the same thread is helpful. -/
theorem Progress.run_waits (hs : Inv s) (n : ℕ) : rank (run step sched s n) < rank s ∨
    rank (run step sched s n) = rank s ∧ helpful (run step sched s n) = helpful s := by
  induction n with
  | zero => exact Or.inr ⟨rfl, rfl⟩
  | succ n ih =>
    have hstep := hp.waits (run step sched s n) (sched n) (hp.run_keeps hs n)
    change rank (step (run step sched s n) (sched n)) < rank s ∨
      rank (step (run step sched s n) (sched n)) = rank s ∧
        helpful (step (run step sched s n) (sched n)) = helpful s
    rcases ih with hlt | ⟨hrank, hhelp⟩
    · exact Or.inl (by omega)
    · rw [hrank, hhelp] at hstep
      exact hstep

/-- The turn of the helpful thread decreases the rank, if nothing has done so before. -/
theorem Progress.rank_lt (hs : Inv s) (hpos : 0 < rank s) {k : ℕ} (hk : sched k = helpful s) :
    rank (run step sched s (k + 1)) < rank s := by
  have hinv : Inv (run step sched s k) := hp.run_keeps hs k
  change rank (step (run step sched s k) (sched k)) < rank s
  have hbefore : rank (run step sched s k) < rank s ∨
      rank (run step sched s k) = rank s ∧ helpful (run step sched s k) = helpful s :=
    hp.run_waits hs k
  rcases hbefore with hlt | ⟨hrank, hhelp⟩
  · have := hp.waits _ (sched k) hinv
    omega
  · rw [hk, ← hhelp, ← hrank]
    exact hp.helps _ hinv (hrank ▸ hpos)

/-- **Under a prompt schedule** each unit of the rank takes `w` turns at most. -/
theorem Progress.ends_within {w : ℕ} (hsched : Prompt w sched) (hs : Inv s) {n : ℕ}
    (hn : w * rank s ≤ n) : rank (run step sched s n) = 0 := by
  induction hr : rank s using Nat.strong_induction_on generalizing s sched n with
  | _ r ih =>
    rcases Nat.eq_zero_or_pos r with rfl | hpos
    · exact Nat.le_zero.mp (hr ▸ hp.rank_le hs n)
    obtain ⟨k, hkw, hk⟩ := hsched (helpful s) 0
    rw [Nat.zero_add] at hk
    have hlt := hp.rank_lt hs (hr ▸ hpos) hk
    -- what is left of the turns is enough for the lower rank
    have hle : w * rank (run step sched s (k + 1)) + w ≤ w * rank s := by
      rw [← Nat.mul_succ]
      exact Nat.mul_le_mul_left w hlt
    have hsplit : n = k + 1 + (n - (k + 1)) := by omega
    rw [hsplit, run_add]
    exact ih _ (hr ▸ hlt) (hsched.shift _) (hp.run_keeps hs _) (by omega) rfl

/-- **Under a fair schedule** the rank comes to zero, and stays there. -/
theorem Progress.ends (hsched : Fair sched) (hs : Inv s) :
    ∃ n, ∀ m, n ≤ m → rank (run step sched s m) = 0 := by
  induction hr : rank s using Nat.strong_induction_on generalizing s sched with
  | _ r ih =>
    rcases Nat.eq_zero_or_pos r with rfl | hpos
    · exact ⟨0, fun m _ => Nat.le_zero.mp (hr ▸ hp.rank_le hs m)⟩
    obtain ⟨k, hk⟩ := hsched (helpful s) 0
    rw [Nat.zero_add] at hk
    have hlt := hp.rank_lt hs (hr ▸ hpos) hk
    obtain ⟨n, hend⟩ := ih _ (hr ▸ hlt) (hsched.shift (k + 1)) (hp.run_keeps hs _) rfl
    refine ⟨k + 1 + n, fun m hm => ?_⟩
    have hsplit : m = k + 1 + (m - (k + 1)) := by omega
    rw [hsplit, run_add]
    exact hend _ (by omega)

end Fairness
