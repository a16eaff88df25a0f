import Mathlib.Order.Basic

/-!
# Iterating a partial step

A machine that may stop is a function `step : σ → Option σ`. `iter step k`
takes exactly `k` steps and fails when the machine stops earlier. The three
rules here are the ones every run argument of the development goes through:
splitting a run, carrying an invariant along it, and reaching a target when a
measure pays for every step that has not reached it yet. `After` is for runs
that are followed step by step.
-/

namespace LearningLinux.Lib

variable {σ : Type*} {step : σ → Option σ}

/-- The state after exactly `k` steps, if the machine takes that many. -/
def iter (step : σ → Option σ) : Nat → σ → Option σ
  | 0, s => some s
  | k + 1, s => (iter step k s).bind step

@[simp] theorem iter_zero (s : σ) : iter step 0 s = some s := rfl

theorem iter_succ (k : Nat) (s : σ) :
    iter step (k + 1) s = (iter step k s).bind step := rfl

theorem iter_one (s : σ) : iter step 1 s = step s := rfl

theorem iter_add (m n : Nat) (s : σ) :
    iter step (m + n) s = (iter step m s).bind (iter step n) := by
  induction n with
  | zero => simp only [Nat.add_zero]; cases iter step m s <;> rfl
  | succ n ih =>
      rw [← Nat.add_assoc, iter_succ, ih, Option.bind_assoc]
      rfl

/-- Two runs glued end to end. -/
theorem iter_trans {m n : Nat} {s t u : σ} (h₁ : iter step m s = some t)
    (h₂ : iter step n t = some u) : iter step (m + n) s = some u := by
  rw [iter_add, h₁, Option.bind_some, h₂]

/-- What one step preserves, a whole run preserves. -/
theorem iter_inv {I : σ → Prop}
    (hstep : ∀ s s', I s → step s = some s' → I s') :
    ∀ {k : Nat} {s s' : σ}, I s → iter step k s = some s' → I s' := by
  intro k
  induction k with
  | zero => intro s s' hs h; cases h; exact hs
  | succ k ih =>
      intro s s' hs h
      rw [iter_succ, Option.bind_eq_some_iff] at h
      obtain ⟨t, ht, hts⟩ := h
      exact hstep t s' (ih hs ht) hts

/-- An invariant that enables a step, and a measure that step decreases,
reach the target: while `I` holds the machine moves, and it cannot move
inside `I` for ever. -/
theorem exists_iter_of_measure {I Q : σ → Prop} (μ : σ → Nat)
    (hstep : ∀ s, I s → ∃ s', step s = some s' ∧
      (Q s' ∨ (I s' ∧ μ s' < μ s))) :
    ∀ {s : σ}, I s → ∃ k s', iter step k s = some s' ∧ Q s' := by
  intro s
  induction hm : μ s using Nat.strongRecOn generalizing s with
  | ind m ih =>
      intro hs
      obtain ⟨t, hst, hq | ⟨ht, hlt⟩⟩ := hstep s hs
      · exact ⟨1, t, by rw [iter_one, hst], hq⟩
      · obtain ⟨k, u, hk, hu⟩ := ih (μ t) (hm ▸ hlt) rfl ht
        exact ⟨1 + k, u, iter_trans (by rw [iter_one, hst]) hk, hu⟩

/-! ## Following a run -/

section After

variable {P Q : σ → Prop} {k n : Nat} {s t : σ}

/-- The machine takes `k` steps and then satisfies `P`. -/
def After (step : σ → Option σ) (k : Nat) (s : σ) (P : σ → Prop) : Prop :=
  ∃ t, iter step k s = some t ∧ P t

theorem After.done (h : P s) : After step 0 s P := ⟨s, rfl, h⟩

theorem After.trans (h : After step k s Q)
    (hQ : ∀ t, Q t → After step n t P) : After step (k + n) s P := by
  obtain ⟨t, ht, hq⟩ := h
  obtain ⟨u, hu, hp⟩ := hQ t hq
  exact ⟨u, iter_trans ht hu, hp⟩

theorem After.next (hst : step s = some t) (h : After step k t P) :
    After step (k + 1) s P := by
  have hone : After step 1 s fun u => u = t := ⟨t, hst, rfl⟩
  rw [Nat.add_comm]
  exact hone.trans fun u hu => hu ▸ h

theorem After.mono (h : After step k s P) (hPQ : ∀ t, P t → Q t) :
    After step k s Q := by
  obtain ⟨t, ht, hp⟩ := h
  exact ⟨t, ht, hPQ t hp⟩

end After

end LearningLinux.Lib
