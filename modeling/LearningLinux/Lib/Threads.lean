import Mathlib.Algebra.BigOperators.Group.Finset.Basic
import Mathlib.Data.Finset.Basic
import Mathlib.Logic.Function.Basic

/-!
# Threads under a scheduler, mutexes and condition variables

A concurrent program is a partial step `step : σ → α → Option σ` whose second
argument is the scheduler's choice: which thread moves and, where the step
itself leaves something open, how it is resolved. A schedule is a list of
choices, `exec` follows it, and a statement about every interleaving is a
statement about every schedule.

`Always` and `Along` speak about a whole run, the one about each of its
states and the other about each of its steps, and the two induction rules
below (`exec_inv`, `always_of_along`) are how an invariant gets from one step
to the run.

`Monitor` is a mutex with its condition variables, under Mesa semantics: a
wake-up only takes a thread out of the waiting set, and the thread still has
to get the mutex back. `Excl` is mutual exclusion, as the invariant that
whoever is inside a critical section owns the lock.
-/

namespace LearningLinux.Lib

/-! ## Schedules -/

section Schedule

variable {σ α : Type*} (step : σ → α → Option σ)

/-- The state after a schedule, if each of its choices is enabled. -/
def exec : σ → List α → Option σ
  | s, [] => some s
  | s, a :: acts => (step s a).bind fun t => exec t acts

/-- Every state of the run satisfies `P`, the first one included. -/
def Always (P : σ → Prop) : σ → List α → Prop
  | s, [] => P s
  | s, a :: acts => P s ∧
      match step s a with
      | none => True
      | some t => Always P t acts

/-- Every step of the run satisfies `G` in the state before it. -/
def Along (G : σ → α → Prop) : σ → List α → Prop
  | _, [] => True
  | s, a :: acts =>
      match step s a with
      | none => True
      | some t => G s a ∧ Along G t acts

instance Along.decidable {G : σ → α → Prop} [∀ s a, Decidable (G s a)] :
    ∀ (s : σ) (acts : List α), Decidable (Along step G s acts)
  | _, [] => inferInstanceAs (Decidable True)
  | s, a :: acts =>
      match h : step s a with
      | none => decidable_of_iff True (by rw [Along, h])
      | some t =>
          have := Along.decidable (G := G) t acts
          decidable_of_iff (G s a ∧ Along step G t acts) (by rw [Along, h])

variable {step} {P I : σ → Prop} {G : σ → α → Prop} {s t : σ} {a : α}
  {acts : List α}

theorem exec_cons : exec step s (a :: acts) = some t ↔
    ∃ u, step s a = some u ∧ exec step u acts = some t :=
  Option.bind_eq_some_iff

theorem exec_append {acts' : List α} : exec step s (acts ++ acts') = some t ↔
    ∃ u, exec step s acts = some u ∧ exec step u acts' = some t := by
  induction acts generalizing s with
  | nil => simp [exec]
  | cons a acts ih =>
      rw [List.cons_append, exec_cons]
      simp only [ih, exec_cons]
      constructor
      · intro ⟨u, hu, w, hw, ht⟩
        exact ⟨w, ⟨u, hu, hw⟩, ht⟩
      · intro ⟨w, ⟨u, hu, hw⟩, ht⟩
        exact ⟨u, hu, w, hw, ht⟩

theorem along_cons : Along step G s (a :: acts) ↔
    ∀ u, step s a = some u → G s a ∧ Along step G u acts := by
  rw [Along]
  cases step s a with
  | none => simp
  | some t => simp

theorem along_and {G' : σ → α → Prop} (h : Along step G s acts)
    (h' : Along step G' s acts) :
    Along step (fun s a => G s a ∧ G' s a) s acts := by
  induction acts generalizing s with
  | nil => trivial
  | cons a acts ih =>
      rw [along_cons] at h h' ⊢
      intro u hu
      exact ⟨⟨(h u hu).1, (h' u hu).1⟩, ih (h u hu).2 (h' u hu).2⟩

theorem always_cons : Always step P s (a :: acts) ↔
    P s ∧ ∀ u, step s a = some u → Always step P u acts := by
  rw [Always]
  cases step s a with
  | none => simp
  | some t => simp

theorem Always.head (h : Always step P s acts) : P s := by
  cases acts with
  | nil => exact h
  | cons a acts => exact h.1

/-- What holds in every state holds in the last one. -/
theorem Always.last (h : Always step P s acts)
    (he : exec step s acts = some t) : P t := by
  induction acts generalizing s with
  | nil => cases he; exact h
  | cons a acts ih =>
      obtain ⟨u, hu, he⟩ := exec_cons.mp he
      exact ih ((always_cons.mp h).2 u hu) he

/-- What every step keeps, if its guard holds, a guarded run keeps. -/
theorem exec_inv_along
    (hstep : ∀ s a t, I s → G s a → step s a = some t → I t)
    (hs : I s) (hg : Along step G s acts) (he : exec step s acts = some t) :
    I t := by
  induction acts generalizing s with
  | nil => cases he; exact hs
  | cons a acts ih =>
      obtain ⟨u, hu, he⟩ := exec_cons.mp he
      obtain ⟨hG, hg⟩ := along_cons.mp hg u hu
      exact ih (hstep s a u hs hG hu) hg he

/-- What every step keeps, a run keeps. -/
theorem exec_inv (hstep : ∀ s a t, I s → step s a = some t → I t)
    (hs : I s) (he : exec step s acts = some t) : I t := by
  induction acts generalizing s with
  | nil => cases he; exact hs
  | cons a acts ih =>
      obtain ⟨u, hu, he⟩ := exec_cons.mp he
      exact ih (hstep s a u hs hu) he

/-- A step that is always enabled under its invariant can be repeated. -/
theorem exec_total (hstep : ∀ s a, I s → ∃ t, step s a = some t ∧ I t)
    (hs : I s) (acts : List α) : ∃ t, exec step s acts = some t ∧ I t := by
  induction acts generalizing s with
  | nil => exact ⟨s, rfl, hs⟩
  | cons a acts ih =>
      obtain ⟨u, hu, hIu⟩ := hstep s a hs
      obtain ⟨t, ht, hIt⟩ := ih hIu
      exact ⟨t, exec_cons.mpr ⟨u, hu, ht⟩, hIt⟩

/-- What every state has under an invariant holds throughout a run. -/
theorem always_of_step (hP : ∀ s, I s → P s)
    (hstep : ∀ s a t, I s → step s a = some t → I t) (hs : I s) :
    Always step P s acts := by
  induction acts generalizing s with
  | nil => exact hP s hs
  | cons a acts ih =>
      rw [always_cons]
      exact ⟨hP s hs, fun u hu => ih (hstep s a u hs hu)⟩

/-- The same for an invariant that guarded steps keep, and a guarded run. -/
theorem always_of_along (hP : ∀ s, I s → P s)
    (hstep : ∀ s a t, I s → G s a → step s a = some t → I t)
    (hs : I s) (hg : Along step G s acts) : Always step P s acts := by
  induction acts generalizing s with
  | nil => exact hP s hs
  | cons a acts ih =>
      rw [always_cons]
      refine ⟨hP s hs, fun u hu => ?_⟩
      obtain ⟨hG, hrest⟩ := along_cons.mp hg u hu
      exact ih (hstep s a u hs hG hu) hrest

/-- If under an invariant the guard of a step decides whether `P` survives
it, the guards of a run decide whether `P` holds throughout. -/
theorem always_iff_along (hP : ∀ s, I s → P s)
    (hstep : ∀ s a t, I s → G s a → step s a = some t → I t)
    (hbad : ∀ s a t, I s → step s a = some t → P t → G s a)
    (hs : I s) : Always step P s acts ↔ Along step G s acts := by
  refine ⟨fun h => ?_, always_of_along hP hstep hs⟩
  induction acts generalizing s with
  | nil => trivial
  | cons a acts ih =>
      rw [along_cons]
      intro u hu
      have hrest := (always_cons.mp h).2 u hu
      have hG := hbad s a u hs hu hrest.head
      exact ⟨hG, ih (hstep s a u hs hG hu) hrest⟩

/-- An invariant that guarded steps keep gives other guards along the run. -/
theorem along_of_along {G' : σ → α → Prop} (hG' : ∀ s a, I s → G' s a)
    (hstep : ∀ s a t, I s → G s a → step s a = some t → I t)
    (hs : I s) (hg : Along step G s acts) : Along step G' s acts := by
  induction acts generalizing s with
  | nil => trivial
  | cons a acts ih =>
      rw [along_cons]
      intro u hu
      obtain ⟨hG, hrest⟩ := along_cons.mp hg u hu
      exact ⟨hG' s a hs, ih (hstep s a u hs hG hu) hrest⟩

/-- Guards that agree under an invariant agree along a run. -/
theorem along_congr {G' : σ → α → Prop}
    (hiff : ∀ s a t, I s → step s a = some t → (G s a ↔ G' s a))
    (hstep : ∀ s a t, I s → step s a = some t → I t) (hs : I s) :
    Along step G s acts ↔ Along step G' s acts := by
  induction acts generalizing s with
  | nil => exact Iff.rfl
  | cons a acts ih =>
      rw [along_cons, along_cons]
      refine forall_congr' fun u => imp_congr_right fun hu => ?_
      exact and_congr (hiff s a u hs hu) (ih (hstep s a u hs hu))

theorem along_of_forall (h : ∀ a ∈ acts, ∀ s, G s a) :
    Along step G s acts := by
  induction acts generalizing s with
  | nil => trivial
  | cons a acts ih =>
      rw [along_cons]
      intro u _
      exact ⟨h a List.mem_cons_self s,
        ih fun b hb => h b (List.mem_cons_of_mem a hb)⟩

end Schedule

/-! ## Runs seen from outside -/

section View

variable {σ α σ' α' : Type*} (step : σ → α → Option σ)
  (view : σ → α → Option α')

variable {step view} {s t : σ} {a : α} {acts : List α}

end View

/-! ## Sums over threads -/

/-- How a sum over the threads changes when one of them moves. -/
theorem sum_moved {ι M : Type*} [Fintype ι] [DecidableEq ι] [AddCommMonoid M]
    (f f' : ι → M) {t : ι} (h : ∀ u, u ≠ t → f' u = f u) :
    ∑ u, f' u + f t = ∑ u, f u + f' t := by
  have hnew := Finset.sum_erase_add Finset.univ f' (Finset.mem_univ t)
  have hold := Finset.sum_erase_add Finset.univ f (Finset.mem_univ t)
  have hsame : ∑ u ∈ Finset.univ.erase t, f' u =
      ∑ u ∈ Finset.univ.erase t, f u :=
    Finset.sum_congr rfl fun u hu => h u (Finset.ne_of_mem_erase hu)
  rw [← hnew, ← hold, hsame, add_right_comm]

theorem sum_update {ι β : Type*} [Fintype ι] [DecidableEq ι] (g : β → Int)
    (f : ι → β) (t : ι) (b : β) :
    ∑ u, g (Function.update f t b u) = ∑ u, g (f u) - g (f t) + g b := by
  have hmoved := sum_moved (fun u => g (f u))
    (fun u => g (Function.update f t b u)) (t := t)
    fun u hu => by rw [Function.update_of_ne hu]
  rw [Function.update_self] at hmoved
  omega

/-! ## Mutual exclusion -/

section Excl

variable {ι : Type*} {owner owner' : Option ι} {inside inside' : ι → Prop}
  {t : ι}

/-- Whoever is inside owns the lock. -/
def Excl (owner : Option ι) (inside : ι → Prop) : Prop :=
  ∀ t, inside t → owner = some t

theorem Excl.eq (h : Excl owner inside) (ht : owner = some t) {u : ι}
    (hu : inside u) : u = t :=
  Option.some.inj ((h u hu).symm.trans ht)

theorem Excl.not_inside (h : Excl none inside) (u : ι) : ¬ inside u :=
  fun hu => nomatch h u hu

/-- A thread takes the free lock. -/
theorem Excl.acquire (h : Excl none inside)
    (hothers : ∀ u, u ≠ t → inside' u → inside u) :
    Excl (some t) inside' := by
  intro u hu
  by_cases hut : u = t
  · rw [hut]
  · exact absurd (hothers u hut hu) (h.not_inside u)

/-- The owner leaves and gives the lock back. -/
theorem Excl.release (h : Excl (some t) inside) (ht : ¬ inside' t)
    (hothers : ∀ u, u ≠ t → inside' u → inside u) : Excl none inside' := by
  intro u hu
  by_cases hut : u = t
  · exact absurd (hut ▸ hu) ht
  · exact absurd (h.eq rfl (hothers u hut hu)) hut

/-- A thread moves without entering. -/
theorem Excl.move (h : Excl owner inside) (ht : inside' t → inside t)
    (hothers : ∀ u, u ≠ t → inside' u → inside u) : Excl owner inside' := by
  intro u hu
  by_cases hut : u = t
  · exact h u (hut ▸ ht (hut ▸ hu))
  · exact h u (hothers u hut hu)

end Excl

/-! ## Monitors -/

/-- A mutex with its condition variables: the thread that holds the mutex, and
the threads blocked in a wait for each condition that nothing has woken yet. -/
structure Monitor (ι κ : Type*) where
  owner : Option ι
  waiting : κ → Finset ι

namespace Monitor

variable {ι κ : Type*}

def free : Monitor ι κ := ⟨none, fun _ => ∅⟩

def lock (m : Monitor ι κ) (t : ι) : Option (Monitor ι κ) :=
  if m.owner = none then some { m with owner := some t } else none

variable {m m' : Monitor ι κ} {c : κ} {t : ι} {woken : Finset ι}

theorem lock_eq_some : m.lock t = some m' ↔
    m.owner = none ∧ m' = ⟨some t, m.waiting⟩ := by
  rw [lock]
  split <;> simp_all [eq_comm]

variable [DecidableEq ι]

def unlock (m : Monitor ι κ) (t : ι) : Option (Monitor ι κ) :=
  if m.owner = some t then some { m with owner := none } else none

theorem unlock_eq_some : m.unlock t = some m' ↔
    m.owner = some t ∧ m' = ⟨none, m.waiting⟩ := by
  rw [unlock]
  split <;> simp_all [eq_comm]

/-- The second half of a wait: a thread that has been woken takes the mutex
back. -/
def relock (m : Monitor ι κ) (c : κ) (t : ι) : Option (Monitor ι κ) :=
  if t ∈ m.waiting c then none else m.lock t

theorem relock_eq_some : m.relock c t = some m' ↔
    t ∉ m.waiting c ∧ m.owner = none ∧ m' = ⟨some t, m.waiting⟩ := by
  rw [relock]
  split
  · simp_all
  · simp_all [lock_eq_some]

variable [DecidableEq κ]

/-- The first half of a wait: the mutex is released and the thread blocked, in
one step. -/
def wait (m : Monitor ι κ) (c : κ) (t : ι) : Option (Monitor ι κ) :=
  if m.owner = some t then
    some ⟨none, Function.update m.waiting c (insert t (m.waiting c))⟩
  else none

/-- A signal wakes the threads in `woken`, at least one if any is waiting. -/
def signal (m : Monitor ι κ) (c : κ) (woken : Finset ι) :
    Option (Monitor ι κ) :=
  if woken ⊆ m.waiting c ∧ (woken = ∅ → m.waiting c = ∅) then
    some { m with
      waiting := Function.update m.waiting c (m.waiting c \ woken) }
  else none

def broadcast (m : Monitor ι κ) (c : κ) : Monitor ι κ :=
  { m with waiting := Function.update m.waiting c ∅ }

/-- A spurious wake-up. -/
def wake (m : Monitor ι κ) (c : κ) (t : ι) : Option (Monitor ι κ) :=
  if t ∈ m.waiting c then
    some { m with
      waiting := Function.update m.waiting c ((m.waiting c).erase t) }
  else none

theorem wait_eq_some : m.wait c t = some m' ↔ m.owner = some t ∧
    m' = ⟨none, Function.update m.waiting c (insert t (m.waiting c))⟩ := by
  rw [wait]
  split <;> simp_all [eq_comm]

theorem signal_eq_some : m.signal c woken = some m' ↔
    woken ⊆ m.waiting c ∧ (woken = ∅ → m.waiting c = ∅) ∧
      m' = ⟨m.owner, Function.update m.waiting c (m.waiting c \ woken)⟩ := by
  rw [signal]
  split <;> simp_all [eq_comm]

theorem wake_eq_some : m.wake c t = some m' ↔ t ∈ m.waiting c ∧
    m' = ⟨m.owner, Function.update m.waiting c ((m.waiting c).erase t)⟩ := by
  rw [wake]
  split <;> simp_all [eq_comm]

end Monitor

end LearningLinux.Lib
