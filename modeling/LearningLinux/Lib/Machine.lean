import LearningLinux.Lib.Iterate
import Mathlib.Data.List.Basic

/-!
# Deterministic machines and the code they run

A machine is a partial step. Its run ends in a state without a step, and it
may end too early: `stop` is the states it is meant to end in, and a run that
ends elsewhere is stuck. `Yields` compares a piece of such a run with a
computation in `Option`: where the computation has a value the machine gets
on, where it has none the machine gets stuck. A run that does end in `stop`
must then have followed the computation (`Yields.of_run`), so one lemma about
a piece of code serves both directions of a simulation.

`Segment` places a piece of code in a program.
-/

namespace LearningLinux.Lib

variable {σ : Type*} {step : σ → Option σ} {stop : σ → Prop}

/-! ## Runs -/

def Reaches (step : σ → Option σ) (s t : σ) : Prop :=
  ∃ n, iter step n s = some t

theorem Reaches.refl (s : σ) : Reaches step s s := ⟨0, rfl⟩

theorem Reaches.single {s t : σ} (h : step s = some t) : Reaches step s t :=
  ⟨1, h⟩

theorem Reaches.trans {s t u : σ} (h₁ : Reaches step s t)
    (h₂ : Reaches step t u) : Reaches step s u := by
  obtain ⟨m, hm⟩ := h₁
  obtain ⟨n, hn⟩ := h₂
  exact ⟨m + n, iter_trans hm hn⟩

/-- A loop that is run through `n` times, with its invariant. -/
theorem Reaches.count {Inv : Nat → σ → Prop} {n : Nat} {s : σ} (h : Inv 0 s)
    (hstep : ∀ i < n, ∀ t, Inv i t → ∃ u, Reaches step t u ∧ Inv (i + 1) u) :
    ∃ t, Reaches step s t ∧ Inv n t := by
  induction n with
  | zero => exact ⟨s, Reaches.refl s, h⟩
  | succ n ih =>
      obtain ⟨t, hst, ht⟩ := ih fun i hi => hstep i (Nat.lt_succ_of_lt hi)
      obtain ⟨u, htu, hu⟩ := hstep n (Nat.lt_succ_self n) t ht
      exact ⟨u, hst.trans htu, hu⟩

theorem iter_succ_of_none {s : σ} (h : step s = none) (n : Nat) :
    iter step (n + 1) s = none := by
  rw [Nat.add_comm, iter_add, iter_one, h]
  rfl

/-- A run to a final state goes through every state the machine reaches. -/
theorem iter_split {m n : Nat} {s t u : σ} (hm : iter step m s = some t)
    (hn : iter step n s = some u) (hu : step u = none) :
    ∃ k, n = m + k ∧ iter step k t = some u := by
  rcases Nat.le_total m n with hle | hle
  · obtain ⟨k, rfl⟩ := Nat.exists_eq_add_of_le hle
    rw [iter_add, hm, Option.bind_some] at hn
    exact ⟨k, rfl, hn⟩
  · obtain ⟨k, rfl⟩ := Nat.exists_eq_add_of_le hle
    rw [iter_add, hn, Option.bind_some] at hm
    cases k with
    | zero =>
        cases hm
        exact ⟨0, rfl, rfl⟩
    | succ k =>
        rw [iter_succ_of_none hu] at hm
        cases hm

theorem Reaches.of_run {n : Nat} {s t u : σ} (h : Reaches step s t)
    (hn : iter step n s = some u) (hu : step u = none) :
    ∃ k ≤ n, iter step k t = some u := by
  obtain ⟨m, hm⟩ := h
  obtain ⟨k, rfl, hk⟩ := iter_split hm hn hu
  exact ⟨k, Nat.le_add_left k m, hk⟩

/-- The rest of a run after its first step. -/
theorem iter_of_step {n : Nat} {s t u : σ} (h : step s = some t)
    (hn : iter step n s = some u) (hu : step u = none) :
    ∃ k < n, iter step k t = some u := by
  obtain ⟨k, rfl, hk⟩ := iter_split (m := 1) h hn hu
  exact ⟨k, by omega, hk⟩

/-! ## Getting stuck -/

/-- The machine ends where it should not. -/
def GetsStuck (step : σ → Option σ) (stop : σ → Prop) (s : σ) : Prop :=
  ∃ t, Reaches step s t ∧ step t = none ∧ ¬ stop t

theorem GetsStuck.not_run {n : Nat} {s u : σ} (h : GetsStuck step stop s)
    (hu : step u = none) (hstop : stop u) : iter step n s ≠ some u := by
  intro hn
  obtain ⟨t, hreach, ht, hnot⟩ := h
  obtain ⟨k, -, hk⟩ := hreach.of_run hn hu
  cases k with
  | zero =>
      cases hk
      exact hnot hstop
  | succ k =>
      rw [iter_succ_of_none ht] at hk
      cases hk

theorem GetsStuck.of_reaches {s t : σ} (h : Reaches step s t)
    (ht : GetsStuck step stop t) : GetsStuck step stop s := by
  obtain ⟨u, hu, hnone, hnot⟩ := ht
  exact ⟨u, h.trans hu, hnone, hnot⟩

/-! ## A run against a computation -/

section Yields

variable {α β : Type*}

/-- From `s` the machine gets to a state in `Q` with the value of `r`, and if
`r` has none it gets stuck. -/
def Yields (step : σ → Option σ) (stop : σ → Prop) (s : σ) (r : Option α)
    (Q : α → σ → Prop) : Prop :=
  match r with
  | some v => ∃ t, Reaches step s t ∧ Q v t
  | none => GetsStuck step stop s

variable {s : σ} {r : Option α} {Q : α → σ → Prop}

theorem yields_some {v : α} (h : Q v s) : Yields step stop s (some v) Q :=
  ⟨s, Reaches.refl s, h⟩

theorem Yields.mono {R : α → σ → Prop} (h : Yields step stop s r Q)
    (hQR : ∀ v t, Q v t → R v t) : Yields step stop s r R := by
  cases r with
  | none => exact h
  | some v =>
      obtain ⟨t, hreach, ht⟩ := h
      exact ⟨t, hreach, hQR v t ht⟩

theorem Yields.next {R : α → σ → Prop} (h : Yields step stop s r Q)
    (hQR : ∀ v t, Q v t → ∃ u, Reaches step t u ∧ R v u) :
    Yields step stop s r R := by
  cases r with
  | none => exact h
  | some v =>
      obtain ⟨t, hreach, ht⟩ := h
      obtain ⟨u, hu, hR⟩ := hQR v t ht
      exact ⟨u, hreach.trans hu, hR⟩

theorem Yields.of_reaches {t : σ} (h : Reaches step s t)
    (ht : Yields step stop t r Q) : Yields step stop s r Q := by
  cases r with
  | none => exact GetsStuck.of_reaches h ht
  | some v =>
      obtain ⟨u, hreach, hu⟩ := ht
      exact ⟨u, h.trans hreach, hu⟩

theorem Yields.bind {f : α → Option β} {R : β → σ → Prop}
    (h : Yields step stop s r Q)
    (hf : ∀ v t, Q v t → Yields step stop t (f v) R) :
    Yields step stop s (r.bind f) R := by
  cases r with
  | none => exact h
  | some v =>
      obtain ⟨t, hreach, ht⟩ := h
      exact Yields.of_reaches hreach (hf v t ht)

theorem Yields.map {f : α → β} {R : β → σ → Prop}
    (h : Yields step stop s r Q) (hf : ∀ v t, Q v t → R (f v) t) :
    Yields step stop s (r.map f) R := by
  cases r with
  | none => exact h
  | some v =>
      obtain ⟨t, hreach, ht⟩ := h
      exact ⟨t, hreach, hf v t ht⟩

/-- One instruction, whose effect depends on a value. -/
theorem yields_step {g : α → σ} (h : step s = r.map g) (hs : ¬ stop s) :
    Yields step stop s r fun v t => t = g v := by
  cases r with
  | none => exact ⟨s, Reaches.refl s, h, hs⟩
  | some v => exact ⟨g v, Reaches.single h, rfl⟩

/-- A run that ends well has followed the computation. -/
theorem Yields.of_run {n : Nat} {u : σ} (h : Yields step stop s r Q)
    (hn : iter step n s = some u) (hu : step u = none) (hstop : stop u) :
    ∃ v t, r = some v ∧ Q v t ∧ ∃ k ≤ n, iter step k t = some u := by
  cases r with
  | none => exact absurd hn (GetsStuck.not_run h hu hstop)
  | some v =>
      obtain ⟨t, hreach, ht⟩ := h
      exact ⟨v, t, rfl, ht, hreach.of_run hn hu⟩

end Yields

/-! ## Pieces of code -/

section Segment

variable {α : Type*} {code k k' : List α} {p : Nat} {a : α}

/-- The piece `k` stands at position `p` of `code`. -/
def Segment (code : List α) (p : Nat) (k : List α) : Prop :=
  k <+: code.drop p

theorem Segment.left (h : Segment code p (k ++ k')) : Segment code p k :=
  (List.prefix_append k k').trans h

theorem Segment.right (h : Segment code p (k ++ k')) :
    Segment code (p + k.length) k' := by
  obtain ⟨rest, hrest⟩ := h
  have hdrop : code.drop (p + k.length) = k' ++ rest := by
    rw [Nat.add_comm, Nat.add_comm, ← List.drop_drop, ← hrest]
    simp only [List.append_assoc, List.drop_left]
  exact ⟨rest, hdrop.symm⟩

theorem Segment.head (h : Segment code p (a :: k)) : code[p]? = some a := by
  obtain ⟨rest, hrest⟩ := h
  have h0 : (code.drop p)[0]? = some a := by rw [← hrest]; rfl
  rwa [List.getElem?_drop, Nat.add_zero] at h0

theorem Segment.tail (h : Segment code p (a :: k)) :
    Segment code (p + 1) k :=
  Segment.right (k := [a]) h

end Segment

end LearningLinux.Lib
