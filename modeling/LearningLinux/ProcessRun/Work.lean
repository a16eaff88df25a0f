import Mathlib.Algebra.Order.BigOperators.Group.Finset
import LearningLinux.ProcessRun.Invariant

/-!
# The work left in the table

`work` adds up, over the processes, the instructions still to run, the ticks
a waiting process still has to wait, and one unit for not being done. An
instruction weighs `io_length + 1`, one more than the wait it may turn into,
so issuing an IO still pays.

No operation of a tick increases it. A waiting process pays one unit for the
clock alone, and a running current process pays for the instruction it
executes or for being retired. So a tick that starts with a process waiting,
or with the current one running, leaves strictly less work behind; the only
ticks that leave it unchanged are those in which nothing can ever happen
again.
-/

namespace LearningLinux.ProcessRun

/-- What is left of one process. -/
def weight (p : Policy) (s : Sched) (q : Nat) : Nat :=
  (p.ioLength + 1) * (s.code q).length +
    (if s.state q = .wait then (s.ioFinishTimes q).getLastD 0 - s.clockTick
      else 0) +
    (if s.state q = .done then 0 else 1)

def work (p : Policy) (s : Sched) : Nat :=
  ∑ q ∈ Finset.range s.numProcs, weight p s q

theorem work_le {p : Policy} {s s' : Sched} (hn : s'.numProcs = s.numProcs)
    (h : ∀ q < s.numProcs, weight p s' q ≤ weight p s q) :
    work p s' ≤ work p s := by
  unfold work
  rw [hn]
  exact Finset.sum_le_sum fun q hq => h q (Finset.mem_range.mp hq)

theorem work_lt {p : Policy} {s s' : Sched} (hn : s'.numProcs = s.numProcs)
    (h : ∀ q < s.numProcs, weight p s' q ≤ weight p s q) {r : Nat}
    (hr : r < s.numProcs) (hlt : weight p s' r < weight p s r) :
    work p s' < work p s := by
  unfold work
  rw [hn]
  exact Finset.sum_lt_sum (fun q hq => h q (Finset.mem_range.mp hq))
    ⟨r, Finset.mem_range.mpr hr, hlt⟩

/-- With the instruction list and the finish times kept, a process that did
not start to wait or come back from the dead weighs no more. -/
theorem weight_le_of_state {p : Policy} {s s' : Sched} {q : Nat}
    (hcode : s'.code q = s.code q)
    (hio : s'.ioFinishTimes q = s.ioFinishTimes q)
    (hclock : s'.clockTick = s.clockTick)
    (hw : s'.state q = .wait → s.state q = .wait)
    (hd : s.state q = .done → s'.state q = .done) :
    weight p s' q ≤ weight p s q := by
  have hwait : (if s'.state q = .wait then
      (s.ioFinishTimes q).getLastD 0 - s.clockTick else 0) ≤
      if s.state q = .wait then
        (s.ioFinishTimes q).getLastD 0 - s.clockTick else 0 := by
    split
    · next h => rw [if_pos (hw h)]
    · exact Nat.zero_le _
  have hdone : (if s'.state q = .done then 0 else 1) ≤
      if s.state q = .done then 0 else 1 := by
    split
    · exact Nat.zero_le _
    · next h => rw [if_neg fun hs => h (hd hs)]
  unfold weight
  rw [hcode, hio, hclock]
  exact Nat.add_le_add (Nat.add_le_add_left hwait _) hdone

/-! ## One lemma per update -/

theorem weight_clock_le (p : Policy) (s : Sched) (q : Nat) :
    weight p { s with clockTick := s.clockTick + 1 } q ≤ weight p s q := by
  unfold weight
  split
  · simp only []; omega
  · exact Nat.le_refl _

theorem weight_clock_lt {p : Policy} {s : Sched} {q : Nat}
    (h : WaitAt s.clockTick s q) (hw : s.state q = .wait) :
    weight p { s with clockTick := s.clockTick + 1 } q < weight p s q := by
  rcases h with ⟨-, old, f, hio, -, hf⟩ | ⟨hn, -⟩
  · unfold weight
    simp only [hw, hio, if_true, List.getLastD_concat]
    omega
  · exact absurd hw hn

theorem weight_promote {p : Policy} {s : Sched}
    (h : s.currProc < s.numProcs) (q : Nat) :
    weight p (promote (others s) s) q ≤ weight p s q := by
  refine weight_le_of_state rfl rfl rfl (promote_wait h q).mp fun hd => ?_
  rw [promote_state h, hd]
  simp

theorem weight_retired_le {p : Policy} {s : Sched} (q : Nat) :
    weight p (retired s) q ≤ weight p s q := by
  by_cases hq : q = s.currProc
  · subst hq
    exact weight_le_of_state rfl rfl rfl (by simp [retired])
      (by simp [retired])
  · exact weight_le_of_state rfl rfl rfl (by simp [retired, hq])
      (by simp [retired, hq])

theorem weight_retired_lt {p : Policy} {s : Sched}
    (hr : s.state s.currProc = .running) :
    weight p (retired s) s.currProc < weight p s s.currProc := by
  unfold weight
  simp [retired, hr]

theorem weight_finished_le {p : Policy} {s : Sched}
    (h : s.currProc < s.numProcs) (q : Nat) :
    weight p (finished s) q ≤ weight p s q := by
  unfold finished
  split
  · exact Nat.le_trans (weight_promote (retired_currLt h) q)
      (weight_retired_le q)
  · exact Nat.le_refl _

theorem weight_finished_lt {p : Policy} {s : Sched}
    (h : s.currProc < s.numProcs) (hc : s.code s.currProc = [])
    (hr : s.state s.currProc = .running) :
    weight p (finished s) s.currProc < weight p s s.currProc := by
  unfold finished
  rw [if_pos ⟨hc, hr⟩]
  exact Nat.lt_of_le_of_lt (weight_promote (retired_currLt h) _)
    (weight_retired_lt hr)

theorem weight_resumed_le {p : Policy} {b : IoDoneBehavior} {pid : Nat}
    {s : Sched} (hp : s.state pid = .wait) (q : Nat) :
    weight p (resumed b pid s) q ≤ weight p s q := by
  refine weight_le_of_state (by rw [resumed_code])
    (by rw [resumed_ioFinishTimes]) resumed_clockTick
    (fun hw => ((resumed_wait hp q).mp hw).2) fun hd => ?_
  have hne : q ≠ pid := by
    rintro rfl
    rw [hp] at hd
    cases hd
  rcases resumed_other (b := b) (s := s) hne with h | ⟨-, -, hr, -⟩
  · rw [h, hd]
  · rw [hd] at hr; cases hr

/-- A running process pays for the instruction it fetches; when that is an
IO, the wait it turns into costs less than the instruction did. -/
theorem weight_step {p : Policy} {s : Sched} {rest : List Instr} {i : Instr}
    (hr : s.state s.currProc = .running)
    (hc : s.code s.currProc = i :: rest) :
    weight p (countIo (fetch s).2) s.currProc + p.ioLength <
      weight p s s.currProc := by
  have hf : (fetch s).2.code s.currProc = rest := by
    simp [fetch, popNextInstruction, hr, hc]
  unfold weight
  simp only [countIo_code, countIo_state, hf, fetch_state, hr, hc,
    List.length_cons, Nat.mul_add, reduceCtorEq, if_false]
  omega

theorem weight_fetch_le {p : Policy} {s : Sched} (q : Nat) :
    weight p (countIo (fetch s).2) q ≤ weight p s q := by
  obtain ⟨-, hio, hcl⟩ := fetch_fields s
  have hlen : ((fetch s).2.code q).length ≤ (s.code q).length := by
    unfold fetch popNextInstruction
    split
    · cases hc : s.code s.currProc with
      | nil => exact Nat.le_refl _
      | cons i rest =>
          by_cases hq : q = s.currProc
          · subst hq; simp [hc]
          · simp [hq]
    · exact Nat.le_refl _
  unfold weight
  simp only [countIo_code, countIo_state, countIo_ioFinishTimes,
    countIo_clockTick, fetch_state, hio, hcl]
  have := Nat.mul_le_mul_left (p.ioLength + 1) hlen
  omega

theorem weight_waiting {p : Policy} {s : Sched}
    (hr : s.state s.currProc = .running) :
    weight p (waiting p s) s.currProc = weight p s s.currProc + p.ioLength := by
  unfold weight
  simp only [waiting, Function.update_self, hr, if_true, reduceCtorEq,
    if_false, List.getLastD_concat]
  omega

theorem weight_waiting_other {p : Policy} {s : Sched} {q : Nat}
    (hq : q ≠ s.currProc) : weight p (waiting p s) q = weight p s q := by
  unfold weight
  simp [waiting, hq]

theorem weight_issued_le {p : Policy} {s : Sched}
    (h : s.currProc < s.numProcs) (q : Nat) :
    weight p (issued p s) q ≤ weight p (waiting p s) q := by
  unfold issued
  split
  · exact weight_promote (s := waiting p s) h q
  · exact Nat.le_refl _

/-! ## The tick as a whole -/

theorem executed_currLt {p : Policy} {s : Sched} (h : Inv s) :
    (if (fetch s).1 = some .io then issued p (countIo (fetch s).2)
      else countIo (fetch s).2).currProc <
    (if (fetch s).1 = some .io then issued p (countIo (fetch s).2)
      else countIo (fetch s).2).numProcs := by
  have hlt := (fetched_inv h).currLt
  split
  · unfold issued
    split
    · exact promote_currProc_lt hlt
    · exact hlt
  · exact hlt

@[simp] theorem issued_numProcs (p : Policy) (s : Sched) :
    (issued p s).numProcs = s.numProcs := by unfold issued; split <;> rfl

theorem executed_numProcs (p : Policy) (s : Sched) :
    (executed p s).numProcs = s.numProcs := by
  have hf := (fetch_fields s).1
  unfold executed
  rw [finished_numProcs]
  split
  · rw [issued_numProcs, countIo_numProcs, hf]
  · rw [countIo_numProcs, hf]

theorem weight_executed_le {p : Policy} {s : Sched} (h : Inv s) (q : Nat) :
    weight p (executed p s) q ≤ weight p s q := by
  refine Nat.le_trans (weight_finished_le (executed_currLt h) q) ?_
  split
  · next hi =>
      have hcl := (fetched_inv h).currLt
      have hr := running_of_fetch hi
      refine Nat.le_trans (weight_issued_le hcl q) ?_
      by_cases hq : q = s.currProc
      · obtain ⟨rest, hc⟩ : ∃ rest, s.code s.currProc = .io :: rest := by
          unfold fetch popNextInstruction at hi
          rw [if_pos hr] at hi
          cases hcode : s.code s.currProc with
          | nil => simp [hcode] at hi
          | cons i rest => simp [hcode] at hi; exact ⟨rest, by rw [hi]⟩
        have hq' : q = (countIo (fetch s).2).currProc := by
          rw [countIo_currProc, fetch_currProc, hq]
        have hr' : (countIo (fetch s).2).state (countIo (fetch s).2).currProc =
            .running := by
          rw [countIo_state, countIo_currProc, fetch_state, fetch_currProc]
          exact hr
        rw [hq', weight_waiting hr', ← hq', hq]
        exact Nat.le_of_lt (weight_step hr hc)
      · have hq' : q ≠ (countIo (fetch s).2).currProc := by
          rw [countIo_currProc, fetch_currProc]; exact hq
        rw [weight_waiting_other hq']
        exact weight_fetch_le q
  · exact weight_fetch_le q

/-- A running current process leaves less work than it found. -/
theorem weight_executed_lt {p : Policy} {s : Sched} (h : Inv s)
    (hr : s.state s.currProc = .running) :
    weight p (executed p s) s.currProc < weight p s s.currProc := by
  have hcurr : (countIo (fetch s).2).currProc = s.currProc := by
    rw [countIo_currProc, fetch_currProc]
  have hst : (countIo (fetch s).2).state s.currProc = .running := by
    rw [countIo_state, fetch_state]; exact hr
  cases hc : s.code s.currProc with
  | nil =>
      have hf : fetch s = (none, { s with cpuBusy := s.cpuBusy + 1 }) := by
        simp [fetch, popNextInstruction, hr, hc]
      have hlt := weight_finished_lt (p := p) (fetched_inv h).currLt
        (by rw [hcurr, countIo_code, hf]; exact hc) (by rw [hcurr]; exact hst)
      rw [hcurr] at hlt
      have hio : ¬ (fetch s).1 = some .io := by simp [hf]
      simp only [executed, if_neg hio]
      exact Nat.lt_of_lt_of_le hlt (weight_fetch_le _)
  | cons i rest =>
      have hstep := weight_step (p := p) hr hc
      refine Nat.lt_of_le_of_lt (weight_finished_le (executed_currLt h) _) ?_
      split
      · refine Nat.lt_of_le_of_lt (weight_issued_le (fetched_inv h).currLt _) ?_
        have hw := weight_waiting (p := p) (s := countIo (fetch s).2)
          (by rw [hcurr]; exact hst)
        rw [hcurr] at hw
        omega
      · omega

theorem work_ioDone_le {p : Policy} {pid : Nat} {s : Sched}
    (hc : s.currProc < s.numProcs) (hp : pid < s.numProcs)
    (hw : s.state pid = .wait) :
    work p (finished (resumed p.ioDone pid s)) ≤ work p s := by
  refine work_le (by simp) fun q _ => ?_
  have hcl : (resumed p.ioDone pid s).currProc <
      (resumed p.ioDone pid s).numProcs := by
    rw [resumed_numProcs]; exact resumed_currLt hc hp
  exact Nat.le_trans (weight_finished_le hcl q) (weight_resumed_le hw q)

/-- A tick that starts with a process waiting, or with the current process
running, strictly decreases the work. -/
theorem tick_work_lt {p : Policy} {s : Sched} (hL : 1 ≤ p.ioLength)
    (h : Inv s)
    (hprog : s.state s.currProc = .running ∨
      ∃ q < s.numProcs, s.state q = .wait) :
    ∃ s', tick p s = some s' ∧ work p s' < work p s := by
  have hbump : work p { s with clockTick := s.clockTick + 1 } ≤ work p s :=
    work_le rfl fun q _ => weight_clock_le p s q
  by_cases hwait : ∃ q < s.numProcs, s.state q = .wait
  · obtain ⟨q, hq, hw⟩ := hwait
    -- the clock alone is paid for by the process that waits
    obtain ⟨s', ht, -, hlt⟩ := tick_rule (P := fun t => work p t < work p s)
      (Q := fun t => work p t < work p s) hL h
      (work_lt rfl (fun q _ => weight_clock_le p s q) hq
        (weight_clock_lt (h.waits q hq) hw))
      (fun t pid hc hp hw hlt =>
        Nat.lt_of_le_of_lt (work_ioDone_le hc hp hw) hlt)
      (fun t ht hlt => Nat.lt_of_le_of_lt
        (work_le (executed_numProcs p t) fun q _ => weight_executed_le ht q)
        hlt)
    exact ⟨s', ht, hlt⟩
  · have hr := hprog.resolve_right hwait
    -- nobody waits, so no IO ends in this tick and the current process runs
    obtain ⟨s', ht, -, hlt⟩ := tick_rule
      (P := fun t => (∀ q < t.numProcs, t.state q ≠ .wait) ∧
        t.state t.currProc = .running ∧ work p t ≤ work p s)
      (Q := fun t => work p t < work p s) hL h
      ⟨fun q hq hw => hwait ⟨q, hq, hw⟩, hr, hbump⟩
      (fun t pid _ hp hw hP => absurd hw (hP.1 pid hp))
      (fun t ht hP => Nat.lt_of_lt_of_le
        (work_lt (executed_numProcs p t) (fun q _ => weight_executed_le ht q)
          ht.currLt (weight_executed_lt ht hP.2.1)) hP.2.2)
    exact ⟨s', ht, hlt⟩

end LearningLinux.ProcessRun
