import LearningLinux.SloppyCounter.Model
import Mathlib.Algebra.Order.BigOperators.Group.Finset
import Mathlib.Data.Nat.Cast.Basic
import Mathlib.Tactic.FinCases
import Mathlib.Tactic.Linarith

/-!
# How far off the sloppy counter can be

While a transfer is half done its value stands in the global counter and
still in the local one, so the counters do not add up in every state. The
invariant keeps two books instead, one entry each for every local counter:
`r id`, what has been added there and is not in the global counter yet, and
`c id`, the amount of the update that holds the local lock, from its addition
to its return. Then

* global plus all `r` is what has been added anywhere, and with the amounts
  still to be added it is what has been started;
* it is also what has been completed plus all `c`.

Which values the two entries of a local counter have depends on where the
holder of its lock is (`Phase`), and `r id - c id` is below the threshold in
each place. Both bounds of `get` and the exact sum at rest are read off these
equations.
-/

namespace LearningLinux.SloppyCounter

open LearningLinux.Lib

/-! ## Where a thread is -/

/-- The local lock that a thread at this statement holds. -/
def Pc.holds : Pc → Option (Fin NUMBCPUS)
  | .add id _ | .test id _ | .lockGlobal id _ | .transfer id _
  | .unlockGlobal id _ | .clear id _ | .unlockLocal id _ => some id
  | .idle | .lockLocal _ _ | .getLock | .getRead | .getUnlock _ => none

/-- The amount of the update under way. -/
def Pc.amount : Pc → Int
  | .lockLocal _ amt | .add _ amt | .test _ amt | .lockGlobal _ amt
  | .transfer _ amt | .unlockGlobal _ amt | .clear _ amt
  | .unlockLocal _ amt => amt
  | .idle | .getLock | .getRead | .getUnlock _ => 0

/-- The amount that the update under way has still to add. -/
def Pc.owed : Pc → Int
  | .lockLocal _ amt | .add _ amt => amt
  | _ => 0

/-- An update is in progress. -/
def Pc.updating : Pc → Bool
  | .idle | .getLock | .getRead | .getUnlock _ => false
  | _ => true

theorem Pc.owed_nonneg {p : Pc} (h : 0 ≤ p.amount) : 0 ≤ p.owed := by
  cases p with
  | lockLocal id amt => exact h
  | add id amt => exact h
  | _ => exact Int.le_refl 0

theorem Pc.updating_of_holds {p : Pc} {id : Fin NUMBCPUS}
    (h : p.holds = some id) : p.updating = true := by
  cases p <;> first | rfl | cases h

theorem Pc.owed_of_not_updating {p : Pc} (h : p.updating = false) :
    p.owed = 0 := by
  cases p <;> first | rfl | cases h

/-! ## The books -/

/-- A local counter `v` that nobody is updating. -/
def Settled (T v r c : Int) : Prop := v = r ∧ 0 ≤ r ∧ r < T ∧ c = 0

/-- A local counter `v` whose lock is held by a thread at `p`. -/
def Phase (T v r c : Int) : Pc → Prop
  | .add _ _ => Settled T v r c
  | .test _ amt | .lockGlobal _ amt | .transfer _ amt =>
      v = r ∧ 0 ≤ r ∧ r - amt < T ∧ c = amt
  | .unlockGlobal _ amt | .clear _ amt => r = 0 ∧ c = amt
  | .unlockLocal _ amt => v = r ∧ 0 ≤ r ∧ r < T ∧ c = amt
  | _ => False

/-- Nothing is ever negative, and no update leaves more than `T - 1` behind. -/
theorem Phase.bounds {T v r c : Int} {p : Pc} (hT : 1 ≤ T)
    (hamt : 0 ≤ p.amount) (h : Phase T v r c p) : 0 ≤ r ∧ r - c ≤ T - 1 := by
  cases p <;> simp only [Phase, Settled, Pc.amount] at h hamt <;> omega

variable {ι : Type*} {s s' : State ι} {t : ι} {p : Pc}
  {id : Fin NUMBCPUS} {r c : Fin NUMBCPUS → Int}

def LocalOk (s : State ι) (id : Fin NUMBCPUS) (r c : Int) : Prop :=
  match s.llock id with
  | none => Settled s.threshold (s.locals id) r c
  | some t => (s.pc t).holds = some id ∧
      Phase s.threshold (s.locals id) r c (s.pc t)

theorem localOk_none {x y : Int} (h : s.llock id = none) : LocalOk s id x y ↔
    Settled s.threshold (s.locals id) x y := by
  rw [LocalOk, h]

theorem localOk_some {x y : Int} (h : s.llock id = some t) :
    LocalOk s id x y ↔ (s.pc t).holds = some id ∧
      Phase s.threshold (s.locals id) x y (s.pc t) := by
  rw [LocalOk, h]

theorem LocalOk.bounds {x y : Int} (hT : 1 ≤ s.threshold)
    (hamt : ∀ t, 0 ≤ (s.pc t).amount) (h : LocalOk s id x y) :
    0 ≤ x ∧ x - y ≤ s.threshold - 1 := by
  cases ho : s.llock id with
  | none =>
      obtain ⟨-, hnonneg, hlt, rfl⟩ := (localOk_none ho).mp h
      omega
  | some t => exact ((localOk_some ho).mp h).2.bounds hT (hamt t)

/-- A thread that moves leaves the local counters alone whose lock it does not
hold. -/
theorem LocalOk.frame [DecidableEq ι] {x y : Int} (h : LocalOk s id x y)
    (hpc : s'.pc = Function.update s.pc t p) (hT : s'.threshold = s.threshold)
    (hllock : s'.llock id = s.llock id) (hlocal : s'.locals id = s.locals id)
    (hne : (s.pc t).holds ≠ some id) : LocalOk s' id x y := by
  cases ho : s.llock id with
  | none =>
      rw [localOk_none (hllock.trans ho), hT, hlocal]
      exact (localOk_none ho).mp h
  | some u =>
      have hu := (localOk_some ho).mp h
      have hut : u ≠ t := by
        intro heq
        exact hne (heq ▸ hu.1)
      rw [localOk_some (hllock.trans ho), hT, hlocal, hpc,
        Function.update_of_ne hut]
      exact hu

variable [Fintype ι]

structure Books (s : State ι) (r c : Fin NUMBCPUS → Int) : Prop where
  localOk : ∀ id, LocalOk s id (r id) (c id)
  started : s.started = s.global + ∑ id, r id + ∑ t, (s.pc t).owed
  completed : s.completed + ∑ id, c id = s.global + ∑ id, r id

/-! ## What the books say -/

/-- No counter, nor an update still to come, is more than what has started. -/
theorem Books.le_started (h : Books s r c) (hT : 1 ≤ s.threshold)
    (hamt : ∀ t, 0 ≤ (s.pc t).amount) (id : Fin NUMBCPUS) (t : ι) :
    s.global + r id + (s.pc t).owed ≤ s.started := by
  have hr : r id ≤ ∑ i, r i :=
    Finset.single_le_sum (fun i _ => ((h.localOk i).bounds hT hamt).1)
      (Finset.mem_univ id)
  have howed : (s.pc t).owed ≤ ∑ u, (s.pc u).owed :=
    Finset.single_le_sum (f := fun u => (s.pc u).owed)
      (fun u _ => Pc.owed_nonneg (hamt u)) (Finset.mem_univ t)
  have := h.started
  omega

theorem Books.global_le (h : Books s r c) (hT : 1 ≤ s.threshold)
    (hamt : ∀ t, 0 ≤ (s.pc t).amount) : s.global ≤ s.started := by
  have hr : 0 ≤ ∑ i, r i :=
    Finset.sum_nonneg fun i _ => ((h.localOk i).bounds hT hamt).1
  have howed : 0 ≤ ∑ u, (s.pc u).owed :=
    Finset.sum_nonneg fun u _ => Pc.owed_nonneg (hamt u)
  have := h.started
  omega

theorem Books.completed_le (h : Books s r c) (hT : 1 ≤ s.threshold)
    (hamt : ∀ t, 0 ≤ (s.pc t).amount) :
    s.completed - NUMBCPUS * (s.threshold - 1) ≤ s.global := by
  have hsum : ∑ i, (r i - c i) ≤
      Finset.univ.card (α := Fin NUMBCPUS) • (s.threshold - 1) :=
    Finset.sum_le_card_nsmul _ _ _
      fun i _ => ((h.localOk i).bounds hT hamt).2
  rw [Finset.sum_sub_distrib, Finset.card_univ, Fintype.card_fin,
    nsmul_eq_mul] at hsum
  have := h.completed
  linarith

/-- What a value returned by `get` promises. -/
def Accurate (T : Int) (x : Reading) : Prop :=
  x.completed - NUMBCPUS * (T - 1) ≤ x.val ∧ x.val ≤ x.started

/-! ## The invariant -/

structure Inv (s : State ι) : Prop where
  held : ∀ t id, (s.pc t).holds = some id → s.llock id = some t
  amounts : ∀ t, 0 ≤ (s.pc t).amount
  books : ∃ r c, Books s r c
  global_nonneg : 0 ≤ s.global
  pending : ∀ t x, s.pc t = .getUnlock x → Accurate s.threshold x
  returned : ∀ x ∈ s.returned, Accurate s.threshold x

theorem inv_init {T : Int} (hT : 1 ≤ T) : Inv (init T : State ι) where
  held := by intro t id h; cases h
  amounts := by intro t; exact Int.le_refl 0
  books := by
    refine ⟨fun _ => 0, fun _ => 0, ?_, ?_, ?_⟩
    · intro id
      exact ⟨rfl, Int.le_refl 0, hT, rfl⟩
    · simp [init, Pc.owed]
    · simp [init]
  global_nonneg := Int.le_refl 0
  pending := by intro t x h; cases h
  returned := by intro x hx; cases hx

/-- The entries of a local counter whose lock thread `t` holds. -/
theorem Inv.phase (h : Inv s) (hbooks : Books s r c)
    (hin : (s.pc t).holds = some id) :
    Phase s.threshold (s.locals id) (r id) (c id) (s.pc t) :=
  ((localOk_some (h.held t id hin)).mp (hbooks.localOk id)).2

/-- At rest every local counter is settled. -/
theorem Inv.at_rest (h : Inv s) (hrest : ∀ t, (s.pc t).updating = false) :
    s.global + ∑ id, s.locals id = s.started ∧
      ∀ id, s.locals id < s.threshold := by
  obtain ⟨r, c, hbooks⟩ := h.books
  have hsettled : ∀ id, Settled s.threshold (s.locals id) (r id) (c id) := by
    intro id
    cases ho : s.llock id with
    | none => exact (localOk_none ho).mp (hbooks.localOk id)
    | some t =>
        have hheld := ((localOk_some ho).mp (hbooks.localOk id)).1
        have hupdating := Pc.updating_of_holds hheld
        rw [hrest t] at hupdating
        cases hupdating
  have howed : ∑ t, (s.pc t).owed = 0 :=
    Finset.sum_eq_zero fun t _ => Pc.owed_of_not_updating (hrest t)
  have hlocals : ∑ id, s.locals id = ∑ id, r id :=
    Finset.sum_congr rfl fun id _ => (hsettled id).1
  have hstarted := hbooks.started
  refine ⟨by omega, fun id => ?_⟩
  obtain ⟨hv, -, hlt, -⟩ := hsettled id
  omega

/-! ## Moving a thread -/

variable [DecidableEq ι]

/-- A step of a thread that concerns no local counter but `id`. -/
theorem Books.moved (h : Books s r c) (id : Fin NUMBCPUS) {x y : Int}
    (hpc : s'.pc = Function.update s.pc t p) (hT : s'.threshold = s.threshold)
    (hllock : ∀ i, i ≠ id → s'.llock i = s.llock i)
    (hlocal : ∀ i, i ≠ id → s'.locals i = s.locals i)
    (hne : ∀ i, i ≠ id → (s.pc t).holds ≠ some i)
    (hid : LocalOk s' id x y)
    (hstarted : s'.started - s.started =
      s'.global - s.global + (x - r id) + (p.owed - (s.pc t).owed))
    (hcompleted : s'.completed - s.completed + (y - c id) =
      s'.global - s.global + (x - r id)) :
    Books s' (Function.update r id x) (Function.update c id y) where
  localOk := by
    intro i
    by_cases hi : i = id
    · subst hi
      rw [Function.update_self, Function.update_self]
      exact hid
    · rw [Function.update_of_ne hi, Function.update_of_ne hi]
      exact (h.localOk i).frame hpc hT (hllock i hi) (hlocal i hi) (hne i hi)
  started := by
    rw [hpc, sum_update Pc.owed, sum_update (fun v : Int => v) r]
    have := h.started
    omega
  completed := by
    rw [sum_update (fun v : Int => v) r, sum_update (fun v : Int => v) c]
    have := h.completed
    omega

/-- A step of a thread that holds no local lock before or after it. -/
theorem Books.away (h : Books s r c)
    (hpc : s'.pc = Function.update s.pc t p) (hT : s'.threshold = s.threshold)
    (hllock : s'.llock = s.llock) (hlocal : s'.locals = s.locals)
    (hne : (s.pc t).holds = none) (hglobal : s'.global = s.global)
    (hstarted : s'.started - s.started = p.owed - (s.pc t).owed)
    (hcompleted : s'.completed = s.completed) : Books s' r c where
  localOk := by
    intro i
    refine (h.localOk i).frame hpc hT (by rw [hllock]) (by rw [hlocal]) ?_
    rw [hne]
    nofun
  started := by
    rw [hpc, sum_update Pc.owed, hglobal]
    have := h.started
    omega
  completed := by
    rw [hcompleted, hglobal]
    exact h.completed

/-- A thread moves to `p`; what is left to show is about `p` and the locks. -/
theorem Inv.moved (h : Inv s) (hpc : s'.pc = Function.update s.pc t p)
    (hT : s'.threshold = s.threshold) (hbooks : ∃ r c, Books s' r c)
    (hglobal : 0 ≤ s'.global)
    (hself : ∀ id, p.holds = some id → s'.llock id = some t)
    (hothers : ∀ u id, u ≠ t → s.llock id = some u → s'.llock id = some u)
    (hamt : 0 ≤ p.amount)
    (hpending : ∀ x, p = .getUnlock x → Accurate s.threshold x)
    (hreturned : ∀ x ∈ s'.returned, Accurate s.threshold x) : Inv s' where
  held := by
    intro u id hu
    rw [hpc] at hu
    by_cases hut : u = t
    · subst hut
      rw [Function.update_self] at hu
      exact hself id hu
    · rw [Function.update_of_ne hut] at hu
      exact hothers u id hut (h.held u id hu)
  amounts := by
    intro u
    rw [hpc]
    by_cases hut : u = t
    · rw [hut, Function.update_self]
      exact hamt
    · rw [Function.update_of_ne hut]
      exact h.amounts u
  books := hbooks
  global_nonneg := hglobal
  pending := by
    intro u x hu
    rw [hpc] at hu
    rw [hT]
    by_cases hut : u = t
    · rw [hut, Function.update_self] at hu
      exact hpending x hu
    · rw [Function.update_of_ne hut] at hu
      exact h.pending u x hu
  returned := by
    rw [hT]
    exact hreturned

/-- A step inside `update` that leaves the locks of the local counters. -/
theorem Inv.inside {x y : Int} (h : Inv s) (hbooks : Books s r c)
    (hpc : s'.pc = Function.update s.pc t p) (hT : s'.threshold = s.threshold)
    (hllock : s'.llock = s.llock) (hin : (s.pc t).holds = some id)
    (hin' : p.holds = some id) (hamt : p.amount = (s.pc t).amount)
    (hlocal : ∀ i, i ≠ id → s'.locals i = s.locals i)
    (hphase : Phase s.threshold (s'.locals id) x y p)
    (hglobal : 0 ≤ s'.global) (hreturned : s'.returned = s.returned)
    (hstarted : s'.started - s.started =
      s'.global - s.global + (x - r id) + (p.owed - (s.pc t).owed))
    (hcompleted : s'.completed - s.completed + (y - c id) =
      s'.global - s.global + (x - r id)) : Inv s' := by
  have hlock : s'.llock id = some t := by rw [hllock, h.held t id hin]
  have hid : LocalOk s' id x y := by
    rw [localOk_some hlock, hT, hpc, Function.update_self]
    exact ⟨hin', hphase⟩
  refine h.moved hpc hT ⟨_, _, hbooks.moved id hpc hT ?_ hlocal ?_ hid hstarted
    hcompleted⟩ hglobal ?_ ?_ ?_ ?_ ?_
  · intro i _
    rw [hllock]
  · intro i hi hheld
    exact hi (Option.some.inj (hheld.symm.trans hin))
  · intro i hi
    rw [← Option.some.inj (hin'.symm.trans hi)]
    exact hlock
  · intro u i _ hu
    rw [hllock, hu]
  · rw [hamt]
    exact h.amounts t
  · intro z hz
    rw [hz] at hin'
    cases hin'
  · rw [hreturned]
    exact h.returned

/-- A step of a thread that holds no local lock before or after it. -/
theorem Inv.away (h : Inv s) (hpc : s'.pc = Function.update s.pc t p)
    (hT : s'.threshold = s.threshold) (hllock : s'.llock = s.llock)
    (hlocal : s'.locals = s.locals) (hout : (s.pc t).holds = none)
    (hout' : p.holds = none) (hglobal : s'.global = s.global)
    (hstarted : s'.started - s.started = p.owed - (s.pc t).owed)
    (hcompleted : s'.completed = s.completed) (hamt : 0 ≤ p.amount)
    (hpending : ∀ x, p = .getUnlock x → Accurate s.threshold x)
    (hreturned : ∀ x ∈ s'.returned, Accurate s.threshold x) : Inv s' := by
  obtain ⟨r, c, hbooks⟩ := h.books
  refine h.moved hpc hT ⟨r, c, hbooks.away hpc hT hllock hlocal hout hglobal
    hstarted hcompleted⟩ ?_ ?_ ?_ hamt hpending hreturned
  · rw [hglobal]
    exact h.global_nonneg
  · intro i hi
    rw [hout'] at hi
    cases hi
  · intro u i _ hu
    rw [hllock, hu]

/-! ## The statements of `update` -/

section Update

variable {amt : Int}

theorem toInt_of_lt {x : Int} (h₀ : 0 ≤ x) (h : x < 2 ^ 31) : toInt x = x := by
  rw [toInt]
  exact Int.bmod_eq_of_le (by omega) (by omega)

theorem Inv.lockLocal (h : Inv s) (hpc : s.pc t = .lockLocal id amt)
    (hfree : s.llock id = none) :
    Inv ((s.setLLock id (some t)).goto t (.add id amt)) := by
  obtain ⟨r, c, hbooks⟩ := h.books
  have hsettled := (localOk_none hfree).mp (hbooks.localOk id)
  refine h.moved rfl rfl ⟨_, _, hbooks.moved id (x := r id) (y := c id)
    rfl rfl ?_ ?_ ?_ ?_ ?_ ?_⟩ h.global_nonneg ?_ ?_ ?_ nofun h.returned
  · intro i hi
    exact Function.update_of_ne hi _ _
  · intro i _
    rfl
  · intro i _
    rw [hpc]
    nofun
  · rw [localOk_some (t := t) (Function.update_self id _ s.llock)]
    change (Function.update s.pc t (.add id amt) t).holds = some id ∧
      Phase _ _ _ _ (Function.update s.pc t (.add id amt) t)
    rw [Function.update_self]
    exact ⟨rfl, hsettled⟩
  · rw [hpc]
    change s.started - s.started = s.global - s.global + _ + (amt - amt)
    omega
  · change s.completed - s.completed + _ = s.global - s.global + _
    omega
  · intro i hi
    cases hi
    exact Function.update_self id _ s.llock
  · intro u i hut hu
    have hi : i ≠ id := by
      intro heq
      rw [heq, hfree] at hu
      cases hu
    change Function.update s.llock id (some t) i = some u
    rw [Function.update_of_ne hi, hu]
  · have := h.amounts t
    rwa [hpc] at this

theorem Inv.add (h : Inv s) (hT : 1 ≤ s.threshold)
    (hlt : s.started < 2 ^ 31) (hpc : s.pc t = .add id amt) :
    Inv ((s.setLocal id (toInt (s.locals id + amt))).goto t
      (.test id amt)) := by
  obtain ⟨r, c, hbooks⟩ := h.books
  have hin : (s.pc t).holds = some id := by rw [hpc]; rfl
  have hphase := h.phase hbooks hin
  have hle := hbooks.le_started hT h.amounts id t
  have hamt := h.amounts t
  have hglobal := h.global_nonneg
  rw [hpc] at hphase hle hamt
  obtain ⟨hv, hr, hrT, hc⟩ := hphase
  change 0 ≤ amt at hamt
  change s.global + r id + amt ≤ s.started at hle
  have hexact : toInt (s.locals id + amt) = r id + amt := by
    rw [hv]
    exact toInt_of_lt (by omega) (by omega)
  refine h.inside (x := r id + amt) (y := amt) hbooks rfl rfl rfl hin rfl
    (by rw [hpc]; rfl) ?_ ?_ hglobal rfl ?_ ?_
  · intro i hi
    exact Function.update_of_ne hi _ _
  · change Function.update s.locals id _ id = r id + amt ∧ _
    rw [Function.update_self]
    exact ⟨hexact, by omega, by omega, rfl⟩
  · rw [hpc]
    change s.started - s.started = s.global - s.global + _ + (0 - amt)
    omega
  · change s.completed - s.completed + _ = s.global - s.global + _
    omega

/-- A step inside `update` that changes no counter. -/
theorem Inv.keeps (h : Inv s) (hbooks : Books s r c)
    (hpc : s'.pc = Function.update s.pc t p) (hT : s'.threshold = s.threshold)
    (hllock : s'.llock = s.llock) (hlocal : s'.locals = s.locals)
    (hglobal : s'.global = s.global) (hstarted : s'.started = s.started)
    (hcompleted : s'.completed = s.completed)
    (hreturned : s'.returned = s.returned) (hin : (s.pc t).holds = some id)
    (hin' : p.holds = some id) (hamt : p.amount = (s.pc t).amount)
    (howed : p.owed = (s.pc t).owed)
    (hphase : Phase s.threshold (s.locals id) (r id) (c id) p) : Inv s' := by
  refine h.inside (x := r id) (y := c id) hbooks hpc hT hllock hin hin' hamt
    ?_ ?_ ?_ hreturned ?_ ?_
  · intro i _
    rw [hlocal]
  · rw [hlocal]
    exact hphase
  · rw [hglobal]
    exact h.global_nonneg
  · omega
  · omega

theorem Inv.test (h : Inv s) (hpc : s.pc t = .test id amt) :
    Inv (s.goto t (if s.threshold ≤ s.locals id then .lockGlobal id amt
      else .unlockLocal id amt)) := by
  obtain ⟨r, c, hbooks⟩ := h.books
  have hin : (s.pc t).holds = some id := by rw [hpc]; rfl
  have hphase := h.phase hbooks hin
  rw [hpc] at hphase
  split
  · exact h.keeps hbooks rfl rfl rfl rfl rfl rfl rfl rfl hin rfl
      (by rw [hpc]; rfl) (by rw [hpc]; rfl) hphase
  · next hsmall =>
      obtain ⟨hv, hr, -, hc⟩ := hphase
      exact h.keeps hbooks rfl rfl rfl rfl rfl rfl rfl rfl hin rfl
        (by rw [hpc]; rfl) (by rw [hpc]; rfl) ⟨hv, hr, by omega, hc⟩

theorem Inv.lockGlobal (h : Inv s) (hpc : s.pc t = .lockGlobal id amt) :
    Inv ((s.setGLock (some t)).goto t (.transfer id amt)) := by
  obtain ⟨r, c, hbooks⟩ := h.books
  have hin : (s.pc t).holds = some id := by rw [hpc]; rfl
  have hphase := h.phase hbooks hin
  rw [hpc] at hphase
  exact h.keeps hbooks rfl rfl rfl rfl rfl rfl rfl rfl hin rfl
    (by rw [hpc]; rfl) (by rw [hpc]; rfl) hphase

/-- The value of the local counter moves to the global one, where it counts
from now on although it is not cleared yet. -/
theorem Inv.transfer (h : Inv s) (hT : 1 ≤ s.threshold)
    (hlt : s.started < 2 ^ 31) (hpc : s.pc t = .transfer id amt) :
    Inv { s.goto t (.unlockGlobal id amt) with
      global := toInt (s.global + s.locals id) } := by
  obtain ⟨r, c, hbooks⟩ := h.books
  have hin : (s.pc t).holds = some id := by rw [hpc]; rfl
  have hphase := h.phase hbooks hin
  have hle := hbooks.le_started hT h.amounts id t
  have hglobal := h.global_nonneg
  rw [hpc] at hphase hle
  obtain ⟨hv, hr, -, hc⟩ := hphase
  change s.global + r id + 0 ≤ s.started at hle
  have hexact : toInt (s.global + s.locals id) = s.global + r id := by
    rw [hv]
    exact toInt_of_lt (by omega) (by omega)
  refine h.inside (x := 0) (y := amt) hbooks rfl rfl rfl hin rfl
    (by rw [hpc]; rfl) ?_ ⟨rfl, rfl⟩ ?_ rfl ?_ ?_
  · intro i _
    rfl
  · change 0 ≤ toInt (s.global + s.locals id)
    omega
  · rw [hpc]
    change s.started - s.started = toInt (s.global + s.locals id) - s.global
      + _ + (0 - 0)
    omega
  · change s.completed - s.completed + _ =
      toInt (s.global + s.locals id) - s.global + _
    omega

theorem Inv.unlockGlobal (h : Inv s) (hpc : s.pc t = .unlockGlobal id amt) :
    Inv ((s.setGLock none).goto t (.clear id amt)) := by
  obtain ⟨r, c, hbooks⟩ := h.books
  have hin : (s.pc t).holds = some id := by rw [hpc]; rfl
  have hphase := h.phase hbooks hin
  rw [hpc] at hphase
  exact h.keeps hbooks rfl rfl rfl rfl rfl rfl rfl rfl hin rfl
    (by rw [hpc]; rfl) (by rw [hpc]; rfl) hphase

theorem Inv.clear (h : Inv s) (hT : 1 ≤ s.threshold)
    (hpc : s.pc t = .clear id amt) :
    Inv ((s.setLocal id 0).goto t (.unlockLocal id amt)) := by
  obtain ⟨r, c, hbooks⟩ := h.books
  have hin : (s.pc t).holds = some id := by rw [hpc]; rfl
  have hphase := h.phase hbooks hin
  rw [hpc] at hphase
  obtain ⟨hr, hc⟩ := hphase
  refine h.inside (x := 0) (y := amt) hbooks rfl rfl rfl hin rfl
    (by rw [hpc]; rfl) ?_ ?_ h.global_nonneg rfl ?_ ?_
  · intro i hi
    exact Function.update_of_ne hi _ _
  · exact ⟨Function.update_self id _ s.locals, Int.le_refl 0, hT, rfl⟩
  · rw [hpc]
    change s.started - s.started = s.global - s.global + _ + (0 - 0)
    omega
  · change s.completed - s.completed + _ = s.global - s.global + _
    omega

theorem Inv.unlockLocal (h : Inv s) (hpc : s.pc t = .unlockLocal id amt) :
    Inv { (s.setLLock id none).goto t .idle with
      completed := s.completed + amt } := by
  obtain ⟨r, c, hbooks⟩ := h.books
  have hin : (s.pc t).holds = some id := by rw [hpc]; rfl
  have hphase := h.phase hbooks hin
  rw [hpc] at hphase
  obtain ⟨hv, hr, hrT, hc⟩ := hphase
  refine h.moved rfl rfl ⟨_, _, hbooks.moved id (x := r id) (y := 0)
    rfl rfl ?_ ?_ ?_ ?_ ?_ ?_⟩ h.global_nonneg nofun ?_ (Int.le_refl 0) nofun
    h.returned
  · intro i hi
    exact Function.update_of_ne hi _ _
  · intro i _
    rfl
  · intro i hi hheld
    exact hi (Option.some.inj (hheld.symm.trans hin))
  · rw [localOk_none (Function.update_self id _ s.llock)]
    exact ⟨hv, hr, hrT, rfl⟩
  · rw [hpc]
    change s.started - s.started = s.global - s.global + _ + (0 - 0)
    omega
  · change s.completed + amt - s.completed + _ = s.global - s.global + _
    omega
  · intro u i hut hu
    have hi : i ≠ id := by
      intro heq
      rw [heq, h.held t id hin] at hu
      exact hut (Option.some.inj hu).symm
    change Function.update s.llock id none i = some u
    rw [Function.update_of_ne hi, hu]

end Update

/-! ## The statements of `get` -/

theorem Inv.getRead (h : Inv s) (hT : 1 ≤ s.threshold)
    (hpc : s.pc t = .getRead) :
    Inv (s.goto t (.getUnlock ⟨s.global, s.completed, s.started⟩)) := by
  obtain ⟨r, c, hbooks⟩ := h.books
  refine h.away rfl rfl rfl rfl (by rw [hpc]; rfl) rfl rfl ?_ rfl
    (Int.le_refl 0) ?_ h.returned
  · rw [hpc]
    exact Int.sub_self _
  · intro x hx
    cases hx
    exact ⟨hbooks.completed_le hT h.amounts, hbooks.global_le hT h.amounts⟩

theorem Inv.getLock (h : Inv s) (hpc : s.pc t = .getLock) :
    Inv ((s.setGLock (some t)).goto t .getRead) := by
  refine h.away rfl rfl rfl rfl (by rw [hpc]; rfl) rfl rfl ?_ rfl
    (Int.le_refl 0) nofun h.returned
  rw [hpc]
  exact Int.sub_self _

theorem Inv.getUnlock (h : Inv s) {x : Reading}
    (hpc : s.pc t = .getUnlock x) :
    Inv { (s.setGLock none).goto t .idle with
      returned := s.returned ++ [x] } := by
  refine h.away rfl rfl rfl rfl (by rw [hpc]; rfl) rfl rfl ?_ rfl
    (Int.le_refl 0) nofun ?_
  · rw [hpc]
    exact Int.sub_self _
  · intro y hy
    rcases List.mem_append.mp hy with hy | hy
    · exact h.returned y hy
    · rw [List.mem_singleton.mp hy]
      exact h.pending t x hpc

/-! ## One step -/

theorem Inv.stmt (h : Inv s) (hT : 1 ≤ s.threshold)
    (hlt : s.started < 2 ^ 31) (hs : s.stmt t = some s') : Inv s' := by
  rw [State.stmt] at hs
  cases hpc : s.pc t with
  | idle =>
      simp only [hpc] at hs
      cases hs
  | lockLocal id amt =>
      simp only [hpc, Option.ite_none_right_eq_some] at hs
      obtain ⟨hfree, ⟨⟩⟩ := hs
      exact h.lockLocal hpc hfree
  | add id amt =>
      simp only [hpc] at hs
      cases hs
      exact h.add hT hlt hpc
  | test id amt =>
      simp only [hpc] at hs
      cases hs
      exact h.test hpc
  | lockGlobal id amt =>
      simp only [hpc, Option.ite_none_right_eq_some] at hs
      obtain ⟨-, ⟨⟩⟩ := hs
      exact h.lockGlobal hpc
  | transfer id amt =>
      simp only [hpc] at hs
      cases hs
      exact h.transfer hT hlt hpc
  | unlockGlobal id amt =>
      simp only [hpc] at hs
      cases hs
      exact h.unlockGlobal hpc
  | clear id amt =>
      simp only [hpc] at hs
      cases hs
      exact h.clear hT hpc
  | unlockLocal id amt =>
      simp only [hpc] at hs
      cases hs
      exact h.unlockLocal hpc
  | getLock =>
      simp only [hpc, Option.ite_none_right_eq_some] at hs
      obtain ⟨-, ⟨⟩⟩ := hs
      exact h.getLock hpc
  | getRead =>
      simp only [hpc] at hs
      cases hs
      exact h.getRead hT hpc
  | getUnlock x =>
      simp only [hpc] at hs
      cases hs
      exact h.getUnlock hpc

theorem Inv.step {a : Act ι} (h : Inv s) (hT : 1 ≤ s.threshold)
    (hlt : s.started < 2 ^ 31) (hamt : 0 ≤ a.amount)
    (hs : step s a = some s') : Inv s' := by
  cases a with
  | run t => exact h.stmt hT hlt hs
  | get t =>
      rw [SloppyCounter.step, Option.ite_none_right_eq_some] at hs
      obtain ⟨hidle, ⟨⟩⟩ := hs
      refine h.away rfl rfl rfl rfl (by rw [hidle]; rfl) rfl rfl ?_ rfl
        (Int.le_refl 0) nofun h.returned
      rw [hidle]
      exact Int.sub_self _
  | update t id amt =>
      rw [SloppyCounter.step, Option.ite_none_right_eq_some] at hs
      obtain ⟨hidle, ⟨⟩⟩ := hs
      refine h.away rfl rfl rfl rfl (by rw [hidle]; rfl) rfl rfl ?_ rfl
        hamt nofun h.returned
      rw [hidle]
      change s.started + amt - s.started = amt - 0
      omega

/-! ## Whole runs -/

/-- The amounts only grow, so a run that ends without an overflow had none. -/
theorem exec_accurate {T : Int} (hT : 1 ≤ T) {acts : List (Act ι)}
    (hamt : ∀ a ∈ acts, 0 ≤ a.amount)
    (hrun : exec step (init T) acts = some s) :
    s.threshold = T ∧ (s.started < 2 ^ 31 → Inv s) := by
  refine exec_inv_along (G := fun _ a => 0 ≤ a.amount)
    (I := fun s => s.threshold = T ∧ (s.started < 2 ^ 31 → Inv s)) ?_
    ⟨rfl, fun _ => inv_init hT⟩
    (along_of_forall fun a ha _ => hamt a ha) hrun
  intro u a v hu ha hv
  obtain ⟨huT, hinv⟩ := hu
  obtain ⟨hvT, hstarted⟩ := step_frame hv
  refine ⟨hvT.trans huT, fun hlt => ?_⟩
  have hult : u.started < 2 ^ 31 := by omega
  exact (hinv hult).step (by omega) hult ha hv

theorem update_get_accurate {T : Int} (hT : 1 ≤ T) {acts : List (Act ι)}
    {s : State ι} (hamt : ∀ a ∈ acts, 0 ≤ a.amount)
    (htotal : total acts < 2 ^ 31)
    (hrun : exec step (init T) acts = some s) :
    ((∀ t, (s.pc t).updating = false) →
      s.global + ∑ id, s.locals id = total acts ∧ ∀ id, s.locals id < T) ∧
    ∀ x ∈ s.returned, x.completed - NUMBCPUS * (T - 1) ≤ x.val ∧
      x.val ≤ x.started := by
  obtain ⟨hsT, hinv⟩ := exec_accurate hT hamt hrun
  have hstarted : s.started = total acts := by
    rw [exec_started hrun]
    exact Int.zero_add _
  rw [← hstarted] at htotal
  have h := hinv htotal
  constructor
  · intro hrest
    rw [← hstarted, ← hsT]
    exact h.at_rest hrest
  · intro x hx
    rw [← hsT]
    exact h.returned x hx

/-- Two updates of `2` and `1` with threshold `3`: the second one moves both
to the global counter. A `get` between them reads `0`, one after them `3`. -/
def twoUpdates : List (Act (Fin 2)) :=
  Act.update 0 ⟨1, by decide⟩ 2 :: List.replicate 4 (Act.run 0) ++
  Act.get 1 :: List.replicate 3 (Act.run 1) ++
  Act.update 1 ⟨1, by decide⟩ 1 :: List.replicate 8 (Act.run 1) ++
  Act.get 0 :: List.replicate 3 (Act.run 0)

theorem update_get_accurate_two : ∃ s : State (Fin 2),
    exec step (init 3) twoUpdates = some s ∧
      s.returned = [⟨0, 2, 2⟩, ⟨3, 3, 3⟩] ∧
      s.global + ∑ id, s.locals id = total twoUpdates ∧
      ∀ x ∈ s.returned, x.completed - NUMBCPUS * (3 - 1) ≤ x.val ∧
        x.val ≤ x.started := by
  have hrun : (exec step (init 3) twoUpdates).map
      (fun s => (s.returned, s.pc 0, s.pc 1)) =
        some ([⟨0, 2, 2⟩, ⟨3, 3, 3⟩], .idle, .idle) := by decide +kernel
  obtain ⟨s, hs, hres⟩ := Option.map_eq_some_iff.mp hrun
  simp only [Prod.mk.injEq] at hres
  have hacc := update_get_accurate (T := 3) (by decide)
    (by decide) (by decide) hs
  refine ⟨s, hs, hres.1, (hacc.1 ?_).1, hacc.2⟩
  intro t
  fin_cases t
  · simp [hres.2.1, Pc.updating]
  · simp [hres.2.2, Pc.updating]

end LearningLinux.SloppyCounter
