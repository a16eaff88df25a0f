import LearningLinux.ProcessRun.Running

/-!
# The contract of `Scheduler.run`

Two things the simulator is supposed to give for every table: after every
tick at most one process runs, and it is `curr_proc`; and the run ends, with
every process done and every instruction list empty. Neither holds for every
table. Both theorems here are equivalences, with the condition read off the
arguments of `run` alone.

The inputs fall into three classes. Up to two processes are fine, with one
exception: two processes under `SWITCH_ON_END` and `IO_RUN_LATER`, the first
of which issues an IO, get stuck with nobody running. Three processes or more
never finish; unless they get stuck in the same way first, the first call of
`_next_proc` finds two ready processes and leaves an orphan.
-/

namespace LearningLinux.ProcessRun

/-- At most one process is running, and if one is, it is `curr_proc`. -/
def SingleRunning (s : Sched) : Prop :=
  (∀ q < s.numProcs, ∀ r < s.numProcs, s.state q = .running →
      s.state r = .running → q = r) ∧
    ∀ q < s.numProcs, s.state q = .running → q = s.currProc

/-- Process 0 has an IO to issue and would not be picked again after it. -/
def Strands (p : Policy) (codes : List (List Instr)) : Prop :=
  p.switch = .onEnd ∧ p.ioDone = .runLater ∧ Instr.io ∈ codes.getD 0 []

theorem singleRunning_of {s : Sched}
    (h : ∀ q < s.numProcs, s.state q = .running → q = s.currProc) :
    SingleRunning s :=
  ⟨fun q hq r hr hqr hrr => (h q hq hqr).trans (h r hr hrr).symm, h⟩

theorem Orphan.not_singleRunning {r : Nat} {s : Sched} (h : Orphan r s) :
    ¬ SingleRunning s :=
  fun hs => h.notCurr (hs.2 r h.lt h.running).symm

theorem Stuck.singleRunning {s : Sched} (h : Stuck s) : SingleRunning s := by
  refine singleRunning_of fun q hq hr => ?_
  by_contra hne
  rw [h.rest q hq (by rw [← h.curr]; exact hne)] at hr
  cases hr

/-! ## The state the loop is entered in -/

section Start
variable {codes : List (List Instr)}

/-- The table with process 0 running and every other process ready. -/
def started (codes : List (List Instr)) : Sched :=
  { init codes with
    state := Function.update (init codes).state 0 .running }

theorem start_eq : start codes = some (started codes) := by
  simp [start, moveToRunning, moveTo, init, started]

theorem started_inv (h : codes.length ≠ 0) : Inv (started codes) :=
  start_inv h start_eq

theorem started_zero : (started codes).state 0 = .running := by
  simp [started]

theorem started_other {q : Nat} (hq : q ≠ 0) :
    (started codes).state q = .ready := by
  simp [started, hq, init]

theorem started_first {p : Policy} (h3 : 3 ≤ codes.length)
    (hs : ¬ Strands p codes) : First p (started codes) :=
  ⟨h3, rfl, fun _ _ hq => ⟨started_other hq, rfl⟩, Or.inl started_zero,
    fun hsw hio hmem => hs ⟨hsw, hio, hmem⟩⟩

theorem started_stuck {p : Policy} (h2 : 2 ≤ codes.length)
    (hs : Strands p codes) : Stuck (started codes) :=
  ⟨h2, rfl, fun _ _ hq => started_other hq,
    Or.inr (Or.inr ⟨started_zero, hs.2.2⟩)⟩

theorem started_good {p : Policy} (h2 : codes.length ≤ 2)
    (hs : codes.length = 2 → ¬ Strands p codes) : Good p (started codes) := by
  have hzero : ∀ q, (started codes).state q = .running → q = 0 := by
    intro q hr
    by_contra hq
    rw [started_other hq] at hr
    cases hr
  have hcases : ∀ q, (started codes).state q = .running ∨
      (started codes).state q = .ready := by
    intro q
    by_cases hq : q = 0
    · rw [hq]; exact Or.inl started_zero
    · exact Or.inr (started_other hq)
  refine ⟨h2, fun q _ hr => hzero q hr, ?_, ?_, ?_, ?_⟩
  · show (started codes).state 0 ≠ .ready
    rw [started_zero]; simp
  · intro hquiet q hq hr
    replace hq : q < codes.length := hq
    have hne : q ≠ 0 := by
      rintro rfl
      rw [started_zero] at hr
      cases hr
    rw [quiet] at hquiet
    split at hquiet
    · exact hquiet started_zero
    · replace hquiet : (started codes).state 0 = .done := hquiet
      rw [started_zero] at hquiet
      cases hquiet
    · next hsw hio =>
        rcases hquiet with hnr | hmem
        · exact hnr started_zero
        · exact hs (by omega) ⟨hsw, hio, hmem⟩
  · intro _ q _ hw
    rcases hcases q with h | h <;> rw [h] at hw <;> cases hw
  · intro q _ hd
    rcases hcases q with h | h <;> rw [h] at hd <;> cases hd

end Start

/-! ## Runs -/

section Runs
variable {p : Policy}

/-- An invariant of the tick, from the state the loop is entered in to the
state after any number of ticks. -/
theorem iter_loopStep_inv {I : Sched → Prop}
    (htick : ∀ s, Inv s → I s → ∃ s', tick p s = some s' ∧ Inv s' ∧ I s')
    {k : Nat} {s s' : Sched} (hs : Inv s) (h : I s)
    (hk : Lib.iter (loopStep p) k s = some s') : Inv s' ∧ I s' := by
  refine Lib.iter_inv (I := fun t => Inv t ∧ I t) ?_ ⟨hs, h⟩ hk
  intro t t' ⟨hi, ht⟩ hstep
  rw [loopStep] at hstep
  split at hstep
  · obtain ⟨u, hu, hi', hu'⟩ := htick t hi ht
    rw [hu] at hstep
    cases hstep
    exact ⟨hi', hu'⟩
  · cases hstep

theorem loop_of_iter : ∀ {k : Nat} {s s' : Sched},
    Lib.iter (loopStep p) k s = some s' → hasActiveProc s' = false →
    loop p k s = .returned s' := by
  intro k
  induction k with
  | zero =>
      intro s s' h hact
      cases h
      rw [loop, hact]
      rfl
  | succ k ih =>
      intro s s' h hact
      rw [Nat.add_comm, Lib.iter_add, Option.bind_eq_some_iff] at h
      obtain ⟨t, ht, hk⟩ := h
      rw [Lib.iter_one, loopStep] at ht
      split at ht
      · next ha =>
          rw [loop, if_pos ha, ht]
          exact ih hk hact
      · cases ht

theorem iter_of_loop : ∀ {fuel : Nat} {s s' : Sched},
    loop p fuel s = .returned s' →
    (∃ k, Lib.iter (loopStep p) k s = some s') ∧ hasActiveProc s' = false := by
  intro fuel
  induction fuel with
  | zero =>
      intro s s' h
      rw [loop] at h
      split at h
      · cases h
      · next ha => cases h; exact ⟨⟨0, rfl⟩, by simpa using ha⟩
  | succ fuel ih =>
      intro s s' h
      rw [loop] at h
      split at h
      · next ha =>
          split at h
          · cases h
          · next t ht =>
              obtain ⟨⟨k, hk⟩, hact⟩ := ih h
              refine ⟨⟨1 + k, Lib.iter_trans ?_ hk⟩, hact⟩
              rw [Lib.iter_one, loopStep, if_pos ha, ht]
      · next ha => cases h; exact ⟨⟨0, rfl⟩, by simpa using ha⟩

/-- A state from which every run keeps an active process is never left. -/
theorem not_returned {s s' : Sched} {k fuel : Nat} {I : Sched → Prop}
    (htick : ∀ s, Inv s → I s → ∃ s', tick p s = some s' ∧ Inv s' ∧ I s')
    (hact : ∀ s, I s → hasActiveProc s = true) {t : Sched}
    (hk : Lib.iter (loopStep p) k s = some t) (hi : Inv t) (ht : I t) :
    loop p fuel s ≠ .returned s' := by
  intro h
  obtain ⟨⟨m, hm⟩, hdone⟩ := iter_of_loop h
  rcases Nat.lt_or_ge m k with hlt | hge
  · -- the loop cannot have been left before the run reached `t`
    obtain ⟨d, rfl⟩ : ∃ d, k = m + (1 + d) := ⟨k - m - 1, by omega⟩
    rw [Lib.iter_add, hm, Option.bind_some, Lib.iter_add, Lib.iter_one,
      loopStep, hdone] at hk
    cases hk
  · obtain ⟨d, rfl⟩ : ∃ d, m = k + d := ⟨m - k, by omega⟩
    rw [Lib.iter_add, hk, Option.bind_some] at hm
    have := hact _ (iter_loopStep_inv htick hi ht hm).2
    rw [hdone] at this
    cases this

theorem tick_numProcs {s s' : Sched} (hL : 1 ≤ p.ioLength) (hs : Inv s)
    (h : tick p s = some s') : s'.numProcs = s.numProcs := by
  obtain ⟨t, ht, -, hn⟩ := tick_rule hL hs
    (P := fun t => t.numProcs = s.numProcs)
    (Q := fun t => t.numProcs = s.numProcs) rfl
    (fun t pid _ _ _ hn => by simpa using hn)
    (fun t _ hn => (executed_numProcs p t).trans hn)
  rw [ht] at h
  cases h
  exact hn

/-- With something to do in every tick, the work runs out and the loop is
left. -/
theorem Good.returns {s : Sched} (h : Good p s) (hL : 1 ≤ p.ioLength)
    (hs : Inv s) (hact : hasActiveProc s = true) :
    ∃ k s', loop p k s = .returned s' ∧ s'.numProcs = s.numProcs ∧
      ∀ q < s.numProcs, s'.state q = .done ∧ s'.code q = [] := by
  have hmove : ∀ t, (Inv t ∧ Good p t ∧ t.numProcs = s.numProcs) ∧
        hasActiveProc t = true →
      ∃ t', loopStep p t = some t' ∧
        (((Inv t' ∧ Good p t' ∧ t'.numProcs = s.numProcs) ∧
            hasActiveProc t' = false) ∨
          (((Inv t' ∧ Good p t' ∧ t'.numProcs = s.numProcs) ∧
            hasActiveProc t' = true) ∧ work p t' < work p t)) := by
    intro t ⟨⟨hi, hg, hn⟩, ha⟩
    obtain ⟨t', ht, hi', hg'⟩ := hg.tick hL hi
    obtain ⟨t'', ht', hlt⟩ := tick_work_lt hL hi (hg.progress hi.currLt ha)
    obtain rfl : t' = t'' := Option.some.inj (ht.symm.trans ht')
    have hn' : t'.numProcs = s.numProcs := (tick_numProcs hL hi ht).trans hn
    refine ⟨t', by rw [loopStep, if_pos ha, ht], ?_⟩
    cases ha' : hasActiveProc t' with
    | false => exact Or.inl ⟨⟨hi', hg', hn'⟩, rfl⟩
    | true => exact Or.inr ⟨⟨⟨hi', hg', hn'⟩, rfl⟩, hlt⟩
  obtain ⟨k, s', hk, ⟨-, hg, hn⟩, hdone⟩ :=
    Lib.exists_iter_of_measure (work p) hmove ⟨⟨hs, h, rfl⟩, hact⟩
  refine ⟨k, s', loop_of_iter hk hdone, hn, fun q hq => ?_⟩
  have hd := not_hasActiveProc (by rw [hdone]; simp) (hn.symm ▸ hq)
  exact ⟨hd, hg.doneEmpty q (hn.symm ▸ hq) hd⟩

end Runs

/-! ## The two equivalences -/

theorem endOfTick_eq_some {p : Policy} {codes : List (List Instr)} {k : Nat}
    {s : Sched} (h : endOfTick p codes k = some s) :
    codes.length ≠ 0 ∧ Lib.iter (loopStep p) k (started codes) = some s := by
  rw [endOfTick] at h
  split at h
  · cases h
  · next hk =>
      rw [start_eq, Option.bind_some] at h
      exact ⟨fun hz => hk (Or.inl hz), h⟩

/-- At the end of every tick at most one process is running and it is
`curr_proc`, exactly when there are at most two processes or process 0 has an
IO to issue under `SWITCH_ON_END` and `IO_RUN_LATER`. -/
theorem singleRunning_iff (p : Policy) (codes : List (List Instr))
    (hL : 1 ≤ p.ioLength) :
    (∀ k s, endOfTick p codes k = some s → SingleRunning s) ↔
      codes.length ≤ 2 ∨ Strands p codes := by
  constructor
  · intro h
    by_contra hno
    obtain ⟨hlen, hs⟩ := not_or.mp hno
    obtain ⟨k, s, hk, -, r, ho⟩ := (started_first (by omega) hs).orphan hL
      (started_inv (by omega))
    refine ho.not_singleRunning (h (k + 1) s ?_)
    rw [endOfTick, if_neg (by omega), start_eq]
    exact hk
  · intro hcond k s hk
    obtain ⟨hlen, hk⟩ := endOfTick_eq_some hk
    have hinv := started_inv hlen
    by_cases hstuck : 2 ≤ codes.length ∧ Strands p codes
    · exact (iter_loopStep_inv
        (fun t hi ht => ht.tick hL hi hstuck.2.1 hstuck.2.2.1) hinv
        (started_stuck hstuck.1 hstuck.2) hk).2.singleRunning
    · have hfew : codes.length ≤ 2 := hcond.elim id fun hs => by
        by_contra hlt
        exact hstuck ⟨by omega, hs⟩
      have hgood := started_good hfew fun h2 hs => hstuck ⟨by omega, hs⟩
      exact singleRunning_of (iter_loopStep_inv
        (fun t hi ht => ht.tick hL hi) hinv hgood hk).2.single

theorem singleRunning_two_procs :
    1 ≤ 5 ∧ ∀ k s,
      endOfTick ⟨.onIo, .runLater, 5⟩ [[.io], [.cpu, .cpu]] k = some s →
      SingleRunning s :=
  ⟨by decide, (singleRunning_iff ⟨.onIo, .runLater, 5⟩ [[.io], [.cpu, .cpu]]
    (by decide)).mpr (Or.inl (by decide))⟩

/-- Three processes that only compute: when the first is done, the other two
are both moved to running. -/
theorem not_singleRunning_three_procs :
    ¬ ∀ (p : Policy) (codes : List (List Instr)), 1 ≤ p.ioLength →
      ∀ k s, endOfTick p codes k = some s → SingleRunning s := by
  intro h
  have hs := h ⟨.onIo, .runLater, 5⟩ [[.cpu], [.cpu, .cpu], [.cpu]] (by decide)
    1 _ rfl
  exact absurd (hs.2 1 (by decide) (by decide)) (by decide)

/-- `Scheduler.run` returns, with every process done and every instruction
list empty, exactly when there is at most one process, or there are two and
process 0 does not issue an IO under `SWITCH_ON_END` and `IO_RUN_LATER`. -/
theorem run_returns_iff (p : Policy) (codes : List (List Instr))
    (hL : 1 ≤ p.ioLength) :
    (∃ fuel s, run p codes fuel = .returned s ∧ s.numProcs = codes.length ∧
        ∀ q < codes.length, s.state q = .done ∧ s.code q = []) ↔
      codes.length ≤ 1 ∨ codes.length = 2 ∧ ¬ Strands p codes := by
  constructor
  · intro ⟨fuel, s, hrun, _⟩
    by_contra hno
    obtain ⟨hlen, hcond⟩ := not_or.mp hno
    have hinv := @started_inv codes (by omega)
    rw [run, if_neg (by omega), start_eq] at hrun
    simp only [] at hrun
    by_cases hs : Strands p codes
    · refine not_returned (k := 0)
        (fun t hi ht => Stuck.tick ht hL hi hs.1 hs.2.1) (fun t ht => ?_) rfl
        hinv (started_stuck (by omega) hs) hrun
      have h2 := ht.two
      exact hasActiveProc_of (q := 1) (by omega)
        (by rw [ht.rest 1 (by omega) (by omega)]; simp)
    · have h3 : 3 ≤ codes.length := by
        by_contra hlt
        exact hcond ⟨by omega, hs⟩
      obtain ⟨k, t, hk, hi, r, ho⟩ := (started_first h3 hs).orphan hL hinv
      refine not_returned (fun t hi ht => Orphan.tick ht hL hi) (fun t ht => ?_)
        hk hi ho hrun
      exact hasActiveProc_of ht.lt (by rw [ht.running]; simp)
  · intro hcond
    rcases Nat.eq_zero_or_pos codes.length with hz | hpos
    · exact ⟨0, init codes, by rw [run, if_pos hz], rfl,
        fun q hq => absurd hq (by omega)⟩
    · have hgood : Good p (started codes) := started_good (by omega)
        fun h2 => (hcond.resolve_left (by omega)).2
      have hact : hasActiveProc (started codes) = true :=
        hasActiveProc_of (q := 0) hpos (by rw [started_zero]; simp)
      obtain ⟨k, s, hloop, hn, hall⟩ := hgood.returns hL
        (started_inv (by omega)) hact
      refine ⟨k, s, ?_, hn, hall⟩
      rw [run, if_neg (by omega), start_eq]
      exact hloop

theorem run_returns_io_comp :
    1 ≤ 5 ∧ ∃ fuel s,
      run ⟨.onIo, .runLater, 5⟩ [[.io], [.cpu, .cpu]] fuel = .returned s ∧
        s.numProcs = 2 ∧ ∀ q < 2, s.state q = .done ∧ s.code q = [] :=
  ⟨by decide, (run_returns_iff ⟨.onIo, .runLater, 5⟩ [[.io], [.cpu, .cpu]]
    (by decide)).mpr (Or.inr ⟨by decide, fun h => by cases h.1⟩)⟩

/-- The Makefile's own `run_io_comp_switch_on_end`, `-l 1:0,2:100 -S
SWITCH_ON_END`, never returns. -/
theorem not_run_returns_io_comp_switch_on_end :
    ¬ ∀ (p : Policy) (codes : List (List Instr)), 1 ≤ p.ioLength →
      ∃ fuel s, run p codes fuel = .returned s ∧
        s.numProcs = codes.length ∧
        ∀ q < codes.length, s.state q = .done ∧ s.code q = [] := by
  intro h
  obtain ⟨fuel, s, hrun, -⟩ := h ⟨.onEnd, .runLater, 5⟩
    [[.io], [.cpu, .cpu]] (by decide)
  have hs : Strands ⟨.onEnd, .runLater, 5⟩ [[.io], [.cpu, .cpu]] :=
    ⟨rfl, rfl, by decide⟩
  rw [run, if_neg (by decide), start_eq] at hrun
  refine not_returned (k := 0) (fun t hi ht => Stuck.tick ht (by decide) hi rfl
    rfl) (fun t ht => ?_) rfl (started_inv (by decide))
    (started_stuck (by decide) hs) hrun
  have h2 := ht.two
  exact hasActiveProc_of (q := 1) (by omega)
    (by rw [ht.rest 1 (by omega) (by omega)]; simp)

end LearningLinux.ProcessRun
