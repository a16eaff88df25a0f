import Mathlib.Data.List.Nodup
import Mathlib.Data.List.Range
import Mathlib.Logic.Function.Basic
import LearningLinux.ProcessRun.Model

/-!
# What the scheduler's operations do

Every operation of `Scheduler` is a chain of `move_to_*` calls, and each of
those asserts the state it leaves. This file takes the assertions out of the
way once: under the one fact a call site always has in hand, an operation
succeeds and its answer is a plain record update. `promote` is what the loop
of `_next_proc` leaves behind, `finished` what `_finish_proc_if_done` does,
`resumed` what happens to a process whose IO is over, and `executed` is the
rest of the tick.

The fact that makes the assertions hold is `Waits`: a waiting process has
exactly one IO still to come, and it is the last one it issued; any other
process has none. It holds for every number of processes and under every
policy, so nothing here depends on how many of them are running.
-/

namespace LearningLinux.ProcessRun

/-! ## `_next_proc` -/

/-- What the loop of `_next_proc` leaves behind: every ready process on the
list is running, and the last of them is the current one. -/
def promote (l : List Nat) (s : Sched) : Sched :=
  { s with
    state := fun q =>
      if q ∈ l ∧ s.state q = .ready then .running else s.state q
    currProc := ((l.filter fun q => s.state q = .ready).getLast?).getD
      s.currProc }

theorem nextProcLoop_eq : ∀ {l : List Nat} (s : Sched), l.Nodup →
    nextProcLoop l s = some (promote l s) := by
  intro l
  induction l with
  | nil =>
      intro s _
      simp [nextProcLoop, promote]
  | cons pid rest ih =>
      intro s hnd
      obtain ⟨hnew, hrest⟩ := List.nodup_cons.mp hnd
      by_cases hr : s.state pid = .ready
      · have hkeep : ∀ q ∈ rest,
            Function.update s.state pid .running q = s.state q := by
          intro q hq
          have hne : q ≠ pid := fun h => hnew (h ▸ hq)
          exact Function.update_of_ne hne _ _
        simp only [nextProcLoop, hr, if_true, moveToRunning, moveTo,
          Option.bind_eq_bind, Option.bind_some]
        rw [ih _ hrest]
        congr 1
        simp only [promote, Sched.mk.injEq, true_and, and_true]
        refine ⟨?_, ?_⟩
        · funext q
          by_cases hq : q = pid
          · subst hq; simp [hnew, hr]
          · simp [hq]
        · have hf : rest.filter (fun q =>
              decide (Function.update s.state pid .running q = .ready)) =
              rest.filter (fun q => decide (s.state q = .ready)) :=
            List.filter_congr fun q hq => by rw [hkeep q hq]
          rw [hf, List.filter_cons_of_pos (by simpa using hr),
            List.getLast?_cons]
          rfl
      · simp only [nextProcLoop, hr, if_false]
        rw [ih _ hrest]
        congr 1
        simp only [promote, Sched.mk.injEq, true_and, and_true]
        refine ⟨?_, ?_⟩
        · funext q
          by_cases hq : q = pid
          · subst hq; simp [hr]
          · simp [hq]
        · rw [List.filter_cons_of_neg (by simpa using hr)]

/-- The pids `_next_proc` visits. -/
def others (s : Sched) : List Nat :=
  (getAllPids s).drop (s.currProc + 1) ++ (getAllPids s).take s.currProc

theorem mem_others {s : Sched} (h : s.currProc < s.numProcs) {q : Nat} :
    q ∈ others s ↔ q < s.numProcs ∧ q ≠ s.currProc := by
  simp only [others, getAllPids, List.mem_append, List.take_range,
    List.mem_range]
  rw [List.range_eq_range', List.drop_range', List.mem_range'_1]
  omega

theorem nodup_others (s : Sched) : (others s).Nodup := by
  have hsplit := List.nodup_range (n := s.numProcs)
  simp only [others, getAllPids]
  refine List.nodup_append.mpr ⟨hsplit.drop, hsplit.take, ?_⟩
  intro a ha b hb
  rw [List.range_eq_range', List.drop_range', List.mem_range'_1] at ha
  rw [List.take_range, List.mem_range] at hb
  omega

theorem nextProc_eq (s : Sched) : nextProc s = some (promote (others s) s) :=
  nextProcLoop_eq s (nodup_others s)

/-- The process table after `_next_proc`, seen from a legal current pid. -/
theorem promote_state {s : Sched} (h : s.currProc < s.numProcs) (q : Nat) :
    (promote (others s) s).state q =
      if q < s.numProcs ∧ q ≠ s.currProc ∧ s.state q = .ready then .running
      else s.state q := by
  simp only [promote, mem_others h, and_assoc]

/-- Where `_next_proc` leaves `curr_proc`: on some other process that was
ready, or where it was when there is none. -/
theorem promote_currProc {s : Sched} (h : s.currProc < s.numProcs) :
    (∃ q, (promote (others s) s).currProc = q ∧ q < s.numProcs ∧
        q ≠ s.currProc ∧ s.state q = .ready) ∨
      ((promote (others s) s).currProc = s.currProc ∧
        ∀ q < s.numProcs, q ≠ s.currProc → s.state q ≠ .ready) := by
  cases hl : ((others s).filter fun q => s.state q = .ready).getLast? with
  | some q =>
      have hmem := List.mem_of_getLast? hl
      rw [List.mem_filter, mem_others h] at hmem
      exact Or.inl ⟨q, by simp [promote, hl], hmem.1.1, hmem.1.2,
        by simpa using hmem.2⟩
  | none =>
      refine Or.inr ⟨by simp [promote, hl], fun q hq hne hr => ?_⟩
      rw [List.getLast?_eq_none_iff, List.filter_eq_nil_iff] at hl
      exact hl q ((mem_others h).mpr ⟨hq, hne⟩) (by simpa using hr)

theorem promote_currProc_lt {s : Sched} (h : s.currProc < s.numProcs) :
    (promote (others s) s).currProc < s.numProcs := by
  rcases promote_currProc h with ⟨q, he, hq, -, -⟩ | ⟨he, -⟩ <;> omega

/-! ## `_finish_proc_if_done` -/

/-- The current process marked done. -/
def retired (s : Sched) : Sched :=
  { s with state := Function.update s.state s.currProc .done }

/-- What `_finish_proc_if_done` does. -/
def finished (s : Sched) : Sched :=
  if s.code s.currProc = [] ∧ s.state s.currProc = .running then
    promote (others (retired s)) (retired s)
  else s

theorem finishProcIfDone_eq (s : Sched) :
    finishProcIfDone s = some (finished s) := by
  unfold finishProcIfDone finished
  simp only [getNumInstructions, List.length_eq_zero_iff]
  split
  · next h =>
      simp only [moveToDone, moveTo, h.2, if_true, Option.bind_eq_bind,
        Option.bind_some]
      exact nextProc_eq (retired s)
  · rfl

/-! ## The end of an IO -/

/-- The process `pid` back from its IO, before `_finish_proc_if_done` looks
at it. -/
def resumed (b : IoDoneBehavior) (pid : Nat) (s : Sched) : Sched :=
  let ready := Function.update s.state pid .ready
  match b with
  | .runImmediate =>
      let preempted :=
        if s.currProc ≠ pid ∧ s.state s.currProc = .running then
          Function.update ready s.currProc .ready
        else ready
      { s with
        state := Function.update preempted pid .running
        currProc := pid }
  | .runLater =>
      if getNumRunnable { s with state := ready } = 1 then
        { s with
          state := Function.update ready pid .running
          currProc := pid }
      else { s with state := ready }

theorem ioDone_eq {b : IoDoneBehavior} {pid : Nat} {s : Sched}
    (h : s.state pid = .wait) :
    ioDone b pid s = some (finished (resumed b pid s)) := by
  unfold ioDone resumed
  simp only [moveToReady, moveTo, h, if_true, Option.bind_eq_bind,
    Option.bind_some]
  cases b with
  | runImmediate =>
      simp only []
      by_cases hc : s.currProc ≠ pid ∧ s.state s.currProc = .running
      · have hst : Function.update s.state pid .ready s.currProc = .running :=
          by rw [Function.update_of_ne hc.1]; exact hc.2
        have hpid : Function.update (Function.update s.state pid .ready)
            s.currProc .ready pid = .ready := by
          rw [Function.update_of_ne (Ne.symm hc.1), Function.update_self]
        rw [if_pos ⟨hc.1, hst⟩, if_pos hst, if_pos hc]
        simp only [Option.bind_some, moveToRunning, moveTo, hpid, if_true]
        exact finishProcIfDone_eq _
      · have hc' : ¬ (s.currProc ≠ pid ∧
            Function.update s.state pid .ready s.currProc = .running) := by
          rintro ⟨hne, hst⟩
          rw [Function.update_of_ne hne] at hst
          exact hc ⟨hne, hst⟩
        rw [if_neg hc', if_neg hc]
        simp only [Option.bind_some, moveToRunning, moveTo,
          Function.update_self, if_true]
        exact finishProcIfDone_eq _
  | runLater =>
      simp only []
      split
      · simp only [moveToRunning, moveTo, Function.update_self, if_true,
          Option.bind_some]
        exact finishProcIfDone_eq _
      · exact finishProcIfDone_eq _

/-! ## The rest of the tick -/

/-- The counter of ticks with an IO in flight. -/
def countIo (s : Sched) : Sched :=
  if 0 < getIosInFlight s.clockTick s then { s with ioBusy := s.ioBusy + 1 }
  else s

@[simp] theorem countIo_numProcs (s : Sched) :
    (countIo s).numProcs = s.numProcs := by unfold countIo; split <;> rfl
@[simp] theorem countIo_state (s : Sched) : (countIo s).state = s.state := by
  unfold countIo; split <;> rfl
@[simp] theorem countIo_code (s : Sched) : (countIo s).code = s.code := by
  unfold countIo; split <;> rfl
@[simp] theorem countIo_ioFinishTimes (s : Sched) :
    (countIo s).ioFinishTimes = s.ioFinishTimes := by
  unfold countIo; split <;> rfl
@[simp] theorem countIo_currProc (s : Sched) :
    (countIo s).currProc = s.currProc := by unfold countIo; split <;> rfl
@[simp] theorem countIo_clockTick (s : Sched) :
    (countIo s).clockTick = s.clockTick := by unfold countIo; split <;> rfl

/-- The current process put to sleep on an IO it has just issued. -/
def waiting (p : Policy) (s : Sched) : Sched :=
  { s with
    state := Function.update s.state s.currProc .wait
    ioFinishTimes := Function.update s.ioFinishTimes s.currProc
      (s.ioFinishTimes s.currProc ++ [s.clockTick + p.ioLength]) }

/-- What issuing an IO does. -/
def issued (p : Policy) (s : Sched) : Sched :=
  if p.switch = .onIo then promote (others (waiting p s)) (waiting p s)
  else waiting p s

theorem issueIo_eq {p : Policy} {s : Sched}
    (h : s.state s.currProc = .running) :
    issueIo p s = some (issued p s) := by
  unfold issueIo issued
  simp only [moveToWait, moveTo, h, if_true, Option.bind_eq_bind,
    Option.bind_some]
  split
  · exact nextProc_eq (waiting p s)
  · rfl

/-- The state after the statements that follow `_handle_io_done_proc`. -/
def executed (p : Policy) (s : Sched) : Sched :=
  let s₁ := countIo (fetch s).2
  finished (if (fetch s).1 = some .io then issued p s₁ else s₁)

theorem fetch_state (s : Sched) : (fetch s).2.state = s.state := by
  unfold fetch popNextInstruction
  split
  · cases s.code s.currProc <;> rfl
  · rfl

theorem fetch_currProc (s : Sched) :
    (fetch s).2.currProc = s.currProc := by
  unfold fetch popNextInstruction
  split
  · cases s.code s.currProc <;> rfl
  · rfl

/-- Only a running process fetches an instruction. -/
theorem running_of_fetch {s : Sched} {i : Instr} (h : (fetch s).1 = some i) :
    s.state s.currProc = .running := by
  unfold fetch at h
  split at h
  · assumption
  · cases h

theorem execute_eq (p : Policy) (s : Sched) :
    execute p s = some (executed p s) := by
  have hcount : (if 0 < getIosInFlight (fetch s).2.clockTick (fetch s).2 then
      { (fetch s).2 with ioBusy := (fetch s).2.ioBusy + 1 }
      else (fetch s).2) = countIo (fetch s).2 := rfl
  unfold execute executed
  simp only [hcount, Option.bind_eq_bind]
  by_cases hi : (fetch s).1 = some .io
  · have hrun : (countIo (fetch s).2).state (countIo (fetch s).2).currProc =
        .running := by
      rw [countIo_state, countIo_currProc, fetch_state, fetch_currProc]
      exact running_of_fetch hi
    rw [if_pos hi, if_pos hi, issueIo_eq hrun, Option.bind_some]
    exact finishProcIfDone_eq _
  · rw [if_neg hi, if_neg hi, Option.bind_some]
    exact finishProcIfDone_eq _

end LearningLinux.ProcessRun
