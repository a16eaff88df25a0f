import Mathlib.Init

/-!
# Programs that pass a state on and may fail

For `StateT σ (Except ε)`: what it takes for a sequence to succeed
(`bind_ok`), and how to run one whose first step is known (`bind_run`). A
proof about such a program takes it apart with the first or puts it together
with the second, and never unfolds the monad.
-/

namespace LearningLinux.Lib

variable {σ ε α β : Type} {x : StateT σ (Except ε) α}
  {f : α → StateT σ (Except ε) β} {s s' : σ} {a : α}

theorem bind_ok {r : β × σ} :
    (x >>= f) s = .ok r ↔ ∃ a s', x s = .ok (a, s') ∧ f a s' = .ok r := by
  constructor
  · intro h
    cases hx : x s with
    | error e =>
        have hbind : (x >>= f) s = .error e := by
          show (x s >>= fun p => f p.1 p.2) = _
          rw [hx]
          rfl
        rw [hbind] at h
        cases h
    | ok p =>
        refine ⟨p.1, p.2, rfl, ?_⟩
        rw [← h]
        show _ = (x s >>= fun p => f p.1 p.2)
        rw [hx]
        rfl
  · intro ⟨a, s', hx, hf⟩
    show (x s >>= fun p => f p.1 p.2) = _
    rw [hx]
    exact hf

theorem bind_run (h : x s = .ok (a, s')) : (x >>= f) s = f a s' := by
  show (x s >>= fun p => f p.1 p.2) = _
  rw [h]
  rfl

theorem bind_error {e : ε} (h : x s = .error e) : (x >>= f) s = .error e := by
  show (x s >>= fun p => f p.1 p.2) = _
  rw [h]
  rfl

theorem except_bind_ok {x : Except ε α} {f : α → Except ε β} {b : β} :
    (x >>= f) = .ok b ↔ ∃ a, x = .ok a ∧ f a = .ok b := by
  cases x with
  | error e => simp [bind, Except.bind]
  | ok a => simp [bind, Except.bind]

theorem pure_ok {r : α × σ} :
    (pure a : StateT σ (Except ε) α) s = .ok r ↔ r = (a, s) := by
  show Except.ok (a, s) = .ok r ↔ _
  constructor
  · intro h
    cases h
    rfl
  · intro h
    rw [h]

/-- A result that passes a test. -/
def okAnd (p : α → Bool) : Except ε α → Bool
  | .ok a => p a
  | .error _ => false

theorem exists_of_okAnd {p : α → Bool} {x : Except ε α}
    (h : okAnd p x = true) : ∃ a, x = .ok a ∧ p a = true := by
  cases x with
  | error e => cases h
  | ok a => exact ⟨a, rfl, h⟩

end LearningLinux.Lib
