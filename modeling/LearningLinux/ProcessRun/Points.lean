import Mathlib.Data.List.Perm.Basic
import LearningLinux.ProcessRun.Contract

/-!
# What holds inside a tick

`points` has the states that a tick goes through from the end of
`_handle_io_done_proc` on, one behind each assignment, those of the called
functions included. The table invariant says that the processes that wait are
those with an IO to come, and it holds at all of them but one: `move_to_wait`
comes a statement before the finish time is appended, and in between the
process waits for an IO that is not in the table yet.
-/

namespace LearningLinux.ProcessRun

/-! ## The points of a tick -/

/-- The state in which the `k`-th tick of `Scheduler.run` has handled the IO
completions. -/
def midTick (p : Policy) (codes : List (List Instr)) (k : Nat) :
    Option Sched :=
  if codes.length = 0 ∨ k = 0 then none
  else do
    let s₀ ← start codes
    let s ← Lib.iter (loopStep p) (k - 1) s₀
    if hasActiveProc s then
      handleIoDoneProc (s.clockTick + 1) p.ioDone
        { s with clockTick := s.clockTick + 1 }
    else none

/-- Where a state of a tick is: behind the `move_to_wait` of a process that
issues an IO, or behind any other assignment. -/
inductive Place where
  | asleep
  | elsewhere
  deriving DecidableEq, Repr

/-- The loop of `_next_proc`: `curr_proc` is set, then the process is moved. -/
def nextProcPoints : List Nat → Sched → List Sched
  | [], _ => []
  | pid :: rest, s =>
      if s.state pid = .ready then
        let s₁ := { s with currProc := pid }
        s₁ :: match moveToRunning pid .ready s₁ with
          | none => []
          | some s₂ => s₂ :: nextProcPoints rest s₂
      else nextProcPoints rest s

def finishPoints (s : Sched) : List Sched :=
  if getNumInstructions s.currProc s = 0 ∧ s.state s.currProc = .running then
    match moveToDone s.currProc .running s with
    | none => []
    | some s₁ => s₁ :: nextProcPoints (others s₁) s₁
  else []

def fetchPoints (s : Sched) : List Sched :=
  if s.state s.currProc = .running then
    let s₁ := (popNextInstruction s.currProc s).2
    [s₁, { s₁ with cpuBusy := s₁.cpuBusy + 1 }]
  else []

def issuePoints (p : Policy) (s : Sched) : List (Place × Sched) :=
  match moveToWait s.currProc .running s with
  | none => []
  | some s₁ =>
      let times := s₁.ioFinishTimes s.currProc ++ [s₁.clockTick + p.ioLength]
      let s₂ := { s₁ with
        ioFinishTimes := Function.update s₁.ioFinishTimes s.currProc times }
      (.asleep, s₁) :: (.elsewhere, s₂) ::
        if p.switch = .onIo then
          (nextProcPoints (others s₂) s₂).map (Prod.mk .elsewhere)
        else []

/-- The states of a tick, `s` being the one in which the IO completions have
been handled. -/
def points (p : Policy) (s : Sched) : List (Place × Sched) :=
  let i := (fetch s).1
  let s₂ := countIo (fetch s).2
  (s :: fetchPoints s ++ [s₂]).map (Prod.mk .elsewhere) ++
    (if i = some .io then issuePoints p s₂ else []) ++
    match if i = some .io then issueIo p s₂ else some s₂ with
    | none => []
    | some s₃ => (finishPoints s₃).map (Prod.mk .elsewhere)

theorem midTick_eq_some {p : Policy} {codes : List (List Instr)} {k : Nat}
    {s₁ : Sched} (h : midTick p codes k = some s₁) :
    codes.length ≠ 0 ∧ k ≠ 0 ∧ ∃ s,
      Lib.iter (loopStep p) (k - 1) (started codes) = some s ∧
      hasActiveProc s = true ∧
      handleIoDoneProc (s.clockTick + 1) p.ioDone
        { s with clockTick := s.clockTick + 1 } = some s₁ := by
  rw [midTick] at h
  split at h
  · cases h
  · next hne =>
      obtain ⟨hlen, hk⟩ := not_or.mp hne
      refine ⟨hlen, hk, ?_⟩
      rw [start_eq] at h
      obtain ⟨s₀, hs₀, h₁⟩ := Option.bind_eq_some_iff.mp h
      cases hs₀
      obtain ⟨s, hs, h'⟩ := Option.bind_eq_some_iff.mp h₁
      split at h'
      · next hact => exact ⟨s, hs, hact, h'⟩
      · cases h'

/-! ## The last point is the end of the tick -/

theorem getLast?_append_of {α : Type} {l l' : List α} {a : α}
    (h : l.getLast? = some a) : (l ++ l').getLast? = (a :: l').getLast? := by
  rw [List.getLast?_append, List.getLast?_cons, h]
  cases l'.getLast? <;> rfl

theorem getLast?_mk {α β : Type} (a : α) (b : β) (l : List β) :
    ((a, b) :: l.map (Prod.mk a)).getLast? =
      ((b :: l).getLast?).map (Prod.mk a) := by
  rw [← List.getLast?_map, List.map_cons]

theorem nextProcPoints_last : ∀ (l : List Nat) (s : Sched),
    (s :: nextProcPoints l s).getLast? = nextProcLoop l s := by
  intro l
  induction l with
  | nil => intro s; rfl
  | cons pid rest ih =>
      intro s
      rw [nextProcPoints, nextProcLoop]
      split
      · next hr =>
          simp only [moveToRunning, moveTo, hr, if_true, Option.bind_eq_bind,
            Option.bind_some]
          rw [List.getLast?_cons_cons, List.getLast?_cons_cons]
          exact ih _
      · exact ih s

theorem finishPoints_last (s : Sched) :
    (s :: finishPoints s).getLast? = finishProcIfDone s := by
  rw [finishPoints, finishProcIfDone]
  split
  · next h =>
      simp only [moveToDone, moveTo, h.2, if_true, Option.bind_eq_bind,
        Option.bind_some]
      rw [List.getLast?_cons_cons]
      exact nextProcPoints_last _ _
  · rfl

theorem issuePoints_eq {p : Policy} {s : Sched}
    (h : s.state s.currProc = .running) :
    issuePoints p s =
      (.asleep, { s with
        state := Function.update s.state s.currProc .wait }) ::
      (.elsewhere, waiting p s) ::
        if p.switch = .onIo then
          (nextProcPoints (others (waiting p s)) (waiting p s)).map
            (Prod.mk .elsewhere)
        else [] := by
  simp only [issuePoints, moveToWait, moveTo, h, if_true]
  rfl

theorem issuePoints_last {p : Policy} {s : Sched}
    (h : s.state s.currProc = .running) :
    (issuePoints p s).getLast? = some (.elsewhere, issued p s) := by
  rw [issuePoints_eq h, List.getLast?_cons_cons, issued]
  split
  · rw [getLast?_mk, nextProcPoints_last]
    rw [nextProcLoop_eq _ (nodup_others _)]
    rfl
  · rfl

theorem running_of_io {s : Sched} (h : (fetch s).1 = some .io) :
    (countIo (fetch s).2).state (countIo (fetch s).2).currProc = .running := by
  rw [countIo_state, countIo_currProc, fetch_state, fetch_currProc]
  exact running_of_fetch h

/-- The points of a tick end with the state that it leaves. -/
theorem points_last (p : Policy) (s : Sched) :
    (points p s).getLast?.map Prod.snd = execute p s := by
  have hfirst : ((s :: fetchPoints s ++ [countIo (fetch s).2]).map
      (Prod.mk Place.elsewhere)).getLast? =
        some (.elsewhere, countIo (fetch s).2) := by
    rw [List.getLast?_map, List.getLast?_concat]
    rfl
  have hfinish (t : Sched) : ((Place.elsewhere, t) ::
      (finishPoints t).map (Prod.mk .elsewhere)).getLast?.map Prod.snd =
        finishProcIfDone t := by
    rw [getLast?_mk, finishPoints_last, Option.map_map]
    cases finishProcIfDone t <;> rfl
  rw [execute_eq, executed, ← finishProcIfDone_eq, ← hfinish, points]
  by_cases hi : (fetch s).1 = some .io
  · simp only [if_pos hi, issueIo_eq (running_of_io hi)]
    have hissue : ((s :: fetchPoints s ++ [countIo (fetch s).2]).map
        (Prod.mk Place.elsewhere) ++
          issuePoints p (countIo (fetch s).2)).getLast? =
        some (.elsewhere, issued p (countIo (fetch s).2)) := by
      rw [List.getLast?_append, issuePoints_last (running_of_io hi)]
      rfl
    rw [getLast?_append_of hissue]
  · simp only [if_neg hi]
    rw [List.append_nil, getLast?_append_of hfirst]

/-! ## The table at every point -/

/-- How many IOs of a process are still to finish. -/
def pending (s : Sched) (q : Nat) : Nat :=
  (s.ioFinishTimes q).countP fun t => decide (s.clockTick < t)

/-- How many processes wait. -/
def numWaiting (s : Sched) : Nat :=
  (getAllPids s).countP fun q => decide (s.state q = .wait)

/-- A process waits if and only if exactly one of its IOs is still to finish,
and there are as many IOs in flight as processes that wait. -/
structure OnePending (s : Sched) : Prop where
  wait_iff : ∀ q < s.numProcs, s.state q = .wait ↔ pending s q = 1
  inFlight : getIosInFlight s.clockTick s = numWaiting s

/-- The current process waits for an IO that is not in the table yet: none of
its own is to finish, the other processes are as they should be, and one IO
fewer is in flight than processes wait. -/
structure Unlisted (s : Sched) : Prop where
  waits : s.state s.currProc = .wait
  pending_eq : pending s s.currProc = 0
  wait_iff : ∀ q < s.numProcs, q ≠ s.currProc →
    (s.state q = .wait ↔ pending s q = 1)
  inFlight : getIosInFlight s.clockTick s + 1 = numWaiting s

theorem WaitAt.pending {s : Sched} {q : Nat} (h : WaitAt s.clockTick s q) :
    pending s q = if s.state q = .wait then 1 else 0 := by
  have hnone : ∀ l : List Nat, (∀ x ∈ l, x ≤ s.clockTick) →
      l.countP (fun x => decide (s.clockTick < x)) = 0 := by
    intro l hl
    rw [List.countP_eq_zero]
    intro x hx
    simpa using hl x hx
  rcases h with ⟨hw, old, f, hio, hold, hf⟩ | ⟨hw, hall⟩
  · rw [if_pos hw, ProcessRun.pending, hio, List.countP_append, hnone old hold]
    simp [hf]
  · rw [if_neg hw, ProcessRun.pending, hnone _ hall]

theorem sum_ite_eq_countP {α : Type} (f : α → Bool) : ∀ l : List α,
    (l.map fun a => if f a = true then 1 else 0).sum = l.countP f := by
  intro l
  induction l with
  | nil => rfl
  | cons a l ih =>
      rw [List.map_cons, List.sum_cons, ih, List.countP_cons, Nat.add_comm]

theorem Inv.onePending {s : Sched} (h : Inv s) : OnePending s := by
  refine ⟨fun q hq => ?_, ?_⟩
  · rw [(h.waits q hq).pending]
    split
    · next hw => simp [hw]
    · next hw => simp [hw]
  · have hmap : ∀ q ∈ getAllPids s,
        (s.ioFinishTimes q).countP (fun t => decide (s.clockTick < t)) =
          if decide (s.state q = .wait) then 1 else 0 := by
      intro q hq
      have := (h.waits q (List.mem_range.mp hq)).pending
      rw [ProcessRun.pending] at this
      simp [this]
    rw [getIosInFlight, List.map_congr_left hmap, sum_ite_eq_countP, numWaiting]

/-- Setting a flag that was not set raises the number of those set by one. -/
theorem countP_range_succ {n c : Nat} (hc : c < n) {f g : Nat → Bool}
    (hf : f c = false) (hg : g c = true) (h : ∀ q, q ≠ c → g q = f q) :
    (List.range n).countP g = (List.range n).countP f + 1 := by
  have hperm := List.perm_cons_erase (List.mem_range.mpr hc)
  have hrest : ((List.range n).erase c).countP g =
      ((List.range n).erase c).countP f := by
    refine List.countP_congr fun q hq => ?_
    rw [h q (List.nodup_range.mem_erase_iff.mp hq).1]
  rw [hperm.countP_eq g, hperm.countP_eq f, List.countP_cons, List.countP_cons,
    hf, hg, hrest]
  rfl

theorem Inv.unlisted {s : Sched} (h : Inv s)
    (hr : s.state s.currProc = .running) :
    Unlisted { s with state := Function.update s.state s.currProc .wait } := by
  have hone := h.onePending
  refine ⟨by simp, ?_, fun q hq hne => ?_, ?_⟩
  · show pending s s.currProc = 0
    rw [(h.waits _ h.currLt).pending, if_neg (by simp [hr])]
  · show Function.update s.state s.currProc .wait q = .wait ↔ pending s q = 1
    rw [Function.update_of_ne hne]
    exact hone.wait_iff q hq
  · show getIosInFlight s.clockTick s + 1 = _
    rw [hone.inFlight]
    refine (countP_range_succ h.currLt ?_ ?_ fun q hne => ?_).symm
    · simp [hr]
    · simp
    · simp [hne]

section Kept

variable {s t : Sched}

/-- An update that changes neither the clock, the finish times nor who waits. -/
theorem Inv.congr (h : Inv s) (hn : t.numProcs = s.numProcs)
    (hc : t.currProc < t.numProcs) (hclock : t.clockTick = s.clockTick)
    (hst : ∀ q < s.numProcs, t.state q = .wait ↔ s.state q = .wait)
    (hio : t.ioFinishTimes = s.ioFinishTimes) : Inv t := by
  refine ⟨hc, fun q hq => ?_⟩
  rw [hn] at hq
  rw [hclock]
  exact (h.waits q hq).congr (hst q hq) (by rw [hio])

theorem nextProcPoints_inv : ∀ {l : List Nat} {s : Sched}, Inv s →
    (∀ q ∈ l, q < s.numProcs) → t ∈ nextProcPoints l s → Inv t := by
  intro l
  induction l with
  | nil => intro s _ _ ht; cases ht
  | cons pid rest ih =>
      intro s h hl ht
      have hpid := hl pid List.mem_cons_self
      have hrest : ∀ q ∈ rest, q < s.numProcs := fun q hq =>
        hl q (List.mem_cons_of_mem _ hq)
      rw [nextProcPoints] at ht
      split at ht
      · next hr =>
          have hset : Inv { s with currProc := pid } :=
            h.congr rfl hpid rfl (fun _ _ => Iff.rfl) rfl
          simp only [moveToRunning, moveTo, hr, if_true, List.mem_cons] at ht
          rcases ht with rfl | rfl | ht
          · exact hset
          all_goals
            have hrun : Inv { s with
                state := Function.update s.state pid .running
                currProc := pid } := by
              refine h.congr rfl hpid rfl (fun q _ => ?_) rfl
              by_cases hq : q = pid
              · subst hq; simp [hr]
              · simp [hq]
          · exact hrun
          · exact ih hrun hrest ht
      · exact ih h hrest ht

theorem finishPoints_inv (h : Inv s) (ht : t ∈ finishPoints s) : Inv t := by
  rw [finishPoints] at ht
  split at ht
  · next hc =>
      have hret : Inv (retired s) := by
        refine h.congr rfl h.currLt rfl (fun q _ => ?_) rfl
        by_cases hq : q = s.currProc
        · subst hq; simp [retired, hc.2]
        · simp [retired, hq]
      simp only [moveToDone, moveTo, hc.2, if_true, List.mem_cons] at ht
      rcases ht with rfl | ht
      · exact hret
      · exact nextProcPoints_inv hret
          (fun q hq => ((mem_others hret.currLt).mp hq).1) ht
  · cases ht

theorem fetchPoints_inv (h : Inv s) (ht : t ∈ fetchPoints s) : Inv t := by
  have hpop : (popNextInstruction s.currProc s).2 = s ∨
      ∃ rest, (popNextInstruction s.currProc s).2 =
        { s with code := Function.update s.code s.currProc rest } := by
    rw [popNextInstruction]
    split
    · exact Or.inl rfl
    · exact Or.inr ⟨_, rfl⟩
  have hinv : Inv (popNextInstruction s.currProc s).2 := by
    rcases hpop with he | ⟨rest, he⟩ <;> rw [he]
    · exact h
    · exact h.congr rfl h.currLt rfl (fun _ _ => Iff.rfl) rfl
  rw [fetchPoints] at ht
  split at ht
  · simp only [List.mem_cons, List.not_mem_nil, or_false] at ht
    rcases ht with rfl | rfl
    · exact hinv
    · exact hinv.congr rfl hinv.currLt rfl (fun _ _ => Iff.rfl) rfl
  · cases ht

end Kept

section Runs

variable {p : Policy}

theorem issuePoints_table {s : Sched} {pt : Place × Sched}
    (hL : 1 ≤ p.ioLength) (h : Inv s) (hr : s.state s.currProc = .running)
    (ht : pt ∈ issuePoints p s) :
    (pt.1 = .asleep → Unlisted pt.2) ∧ (pt.1 ≠ .asleep → Inv pt.2) := by
  have hw := waiting_inv hL h hr
  rw [issuePoints_eq hr, List.mem_cons, List.mem_cons] at ht
  rcases ht with rfl | rfl | ht
  · exact ⟨fun _ => h.unlisted hr, fun hne => absurd rfl hne⟩
  · exact ⟨nofun, fun _ => hw⟩
  · split at ht
    · obtain ⟨t, htm, rfl⟩ := List.mem_map.mp ht
      exact ⟨nofun, fun _ => nextProcPoints_inv hw
        (fun q hq => ((mem_others hw.currLt).mp hq).1) htm⟩
    · cases ht

/-- The table invariant holds at every point of a tick but one. -/
theorem points_table {s : Sched} {pt : Place × Sched} (hL : 1 ≤ p.ioLength)
    (h : Inv s) (ht : pt ∈ points p s) :
    (pt.1 = .asleep → Unlisted pt.2) ∧ (pt.1 ≠ .asleep → Inv pt.2) := by
  have helse : ∀ {l : List Sched}, (∀ t ∈ l, Inv t) →
      pt ∈ l.map (Prod.mk .elsewhere) →
        (pt.1 = .asleep → Unlisted pt.2) ∧ (pt.1 ≠ .asleep → Inv pt.2) := by
    intro l hl hmem
    obtain ⟨t, htm, rfl⟩ := List.mem_map.mp hmem
    exact ⟨nofun, fun _ => hl t htm⟩
  have hf := fetched_inv h
  rw [points, List.mem_append, List.mem_append] at ht
  rcases ht with (ht | ht) | ht
  · refine helse (fun t htm => ?_) ht
    rw [List.mem_append, List.mem_cons, List.mem_singleton] at htm
    rcases htm with (rfl | htm) | rfl
    · exact h
    · exact fetchPoints_inv h htm
    · exact hf
  · split at ht
    · next hi => exact issuePoints_table hL hf (running_of_io hi) ht
    · cases ht
  · split at ht
    · cases ht
    · next t hissue =>
        refine helse (fun u hu => finishPoints_inv ?_ hu) ht
        split at hissue
        · next hi =>
            rw [issueIo_eq (running_of_io hi)] at hissue
            cases hissue
            exact issued_inv hL hf (running_of_io hi)
        · cases hissue
          exact hf

/-! ## Whole runs -/

theorem loop_no_assertion (hL : 1 ≤ p.ioLength) :
    ∀ (fuel : Nat) {s : Sched}, Inv s → loop p fuel s ≠ .assertionError := by
  intro fuel
  induction fuel with
  | zero =>
      intro s _ h
      rw [loop] at h
      split at h <;> cases h
  | succ fuel ih =>
      intro s hs h
      rw [loop] at h
      split at h
      · obtain ⟨s', ht, hs', -⟩ := tick_rule (P := fun _ => True)
          (Q := fun _ => True) hL hs trivial (fun _ _ _ _ _ _ => trivial)
          (fun _ _ _ => trivial)
        rw [ht] at h
        exact ih hs' h
      · cases h

theorem run_no_assertion (hL : 1 ≤ p.ioLength) (codes : List (List Instr))
    (fuel : Nat) : run p codes fuel ≠ .assertionError := by
  rw [run]
  split
  · simp
  · next hlen =>
      rw [start_eq]
      exact loop_no_assertion hL fuel (started_inv hlen)

theorem iter_inv_table (hL : 1 ≤ p.ioLength) {k : Nat} {s s' : Sched}
    (hs : Inv s) (hk : Lib.iter (loopStep p) k s = some s') : Inv s' := by
  refine (iter_loopStep_inv (I := fun _ => True) (fun t ht _ => ?_) hs trivial
    hk).1
  exact tick_rule (P := fun _ => True) hL ht trivial
    (fun _ _ _ _ _ _ => trivial) (fun _ _ _ => trivial)

/-- What survives the moved clock, the end of an IO and the rest of a tick
holds in the middle of every tick of a run. -/
theorem midTick_rule {P : Sched → Prop} {codes : List (List Instr)}
    (hL : 1 ≤ p.ioLength) (hstart : P (started codes))
    (hclock : ∀ s, P s → P { s with clockTick := s.clockTick + 1 })
    (hio : ∀ s pid, s.currProc < s.numProcs → pid < s.numProcs →
      s.state pid = .wait → P s → P (finished (resumed p.ioDone pid s)))
    (hexec : ∀ s, Inv s → P s → P (executed p s)) {k : Nat} {s : Sched}
    (h : midTick p codes k = some s) : Inv s ∧ P s := by
  obtain ⟨hlen, -, s₀, hs₀, -, hmid⟩ := midTick_eq_some h
  obtain ⟨hinv, hp⟩ := iter_loopStep_inv (I := P)
    (fun t ht hpt => tick_rule hL ht (hclock t hpt) hio hexec)
    (started_inv hlen) hstart hs₀
  obtain ⟨s₁, hrun, hs₁, hp₁, -⟩ := tick_split hinv (hclock s₀ hp) hio
  rw [hrun] at hmid
  cases hmid
  exact ⟨hs₁, hp₁⟩

theorem midTick_inv (hL : 1 ≤ p.ioLength) {codes : List (List Instr)} {k : Nat}
    {s : Sched} (h : midTick p codes k = some s) : Inv s :=
  (midTick_rule (P := fun _ => True) hL trivial (fun _ _ => trivial)
    (fun _ _ _ _ _ _ => trivial) (fun _ _ _ => trivial) h).1

end Runs

/-! ## IOs end one at a time -/

/-- Every finish time in the table is below `bound`, and it is there for one
process only. -/
structure Apart (bound : Nat) (s : Sched) : Prop where
  below : ∀ q, ∀ x ∈ s.ioFinishTimes q, x < bound
  alone : ∀ q r x, x ∈ s.ioFinishTimes q → x ∈ s.ioFinishTimes r → q = r

theorem Apart.congr {b b' : Nat} {s t : Sched} (h : Apart b s) (hb : b ≤ b')
    (hio : t.ioFinishTimes = s.ioFinishTimes) : Apart b' t := by
  refine ⟨fun q x hx => ?_, fun q r x hq hr => ?_⟩
  · rw [hio] at hx
    exact Nat.lt_of_lt_of_le (h.below q x hx) hb
  · rw [hio] at hq hr
    exact h.alone q r x hq hr

/-- A tick appends at most one finish time, `io_length` from now. -/
theorem executed_ioFinishTimes (p : Policy) (s : Sched) :
    (executed p s).ioFinishTimes = s.ioFinishTimes ∨
      (executed p s).ioFinishTimes = Function.update s.ioFinishTimes
        s.currProc (s.ioFinishTimes s.currProc ++
          [s.clockTick + p.ioLength]) := by
  obtain ⟨-, hio, hc⟩ := fetch_fields s
  rw [executed, finished_ioFinishTimes]
  split
  · refine Or.inr ?_
    have hissued (t : Sched) : (issued p t).ioFinishTimes =
        (waiting p t).ioFinishTimes := by
      rw [issued]
      split <;> rfl
    rw [hissued]
    simp [waiting, hio, hc, fetch_currProc]
  · exact Or.inl (by simp [hio])

theorem executed_clockTick (p : Policy) (s : Sched) :
    (executed p s).clockTick = s.clockTick := by
  obtain ⟨-, -, hc⟩ := fetch_fields s
  rw [executed, finished_clockTick]
  split
  · rw [issued]
    split <;> exact (countIo_clockTick _).trans hc
  · exact (countIo_clockTick _).trans hc

theorem Apart.executed {p : Policy} {s : Sched}
    (h : Apart (s.clockTick + p.ioLength) s) :
    Apart (s.clockTick + p.ioLength + 1) (executed p s) := by
  rcases executed_ioFinishTimes p s with hio | hio
  · exact h.congr (Nat.le_succ _) hio
  · -- the time appended is later than every other one in the table
    have hmem : ∀ q x, x ∈ (ProcessRun.executed p s).ioFinishTimes q →
        x ∈ s.ioFinishTimes q ∨
          x = s.clockTick + p.ioLength ∧ q = s.currProc := by
      intro q x hx
      rw [hio] at hx
      by_cases hq : q = s.currProc
      · subst hq
        rw [Function.update_self, List.mem_append, List.mem_singleton] at hx
        exact hx.imp id fun he => ⟨he, rfl⟩
      · rw [Function.update_of_ne hq] at hx
        exact Or.inl hx
    refine ⟨fun q x hx => ?_, fun q r x hq hr => ?_⟩
    · rcases hmem q x hx with hold | ⟨he, -⟩
      · have := h.below q x hold
        omega
      · omega
    · rcases hmem q x hq with hold | ⟨he, hc⟩ <;>
        rcases hmem r x hr with hold' | ⟨he', hc'⟩
      · exact h.alone q r x hold hold'
      · have := h.below q x hold
        omega
      · have := h.below r x hold'
        omega
      · rw [hc, hc']

/-- No two processes are due at the same clock value: one instruction is
executed in a tick, so `_handle_io_done_proc` ends at most one IO each time. -/
theorem ends_alone {p : Policy} (hL : 1 ≤ p.ioLength)
    {codes : List (List Instr)} {k : Nat} {s : Sched}
    (h : endOfTick p codes k = some s) {q r t : Nat}
    (hq : t ∈ s.ioFinishTimes q) (hr : t ∈ s.ioFinishTimes r) : q = r := by
  obtain ⟨hlen, hk⟩ := endOfTick_eq_some h
  have hstart : Apart ((started codes).clockTick + p.ioLength + 1)
      (started codes) :=
    ⟨fun _ _ hx => (by cases hx), fun _ _ _ hx => (by cases hx)⟩
  refine (iter_loopStep_inv (p := p)
    (I := fun u => Apart (u.clockTick + p.ioLength + 1) u) (fun u hi hu => ?_)
    (started_inv hlen) hstart hk).2.alone q r t hq hr
  refine tick_rule (P := fun v => Apart (v.clockTick + p.ioLength) v) hL hi
    (hu.congr (by simp only []; omega) rfl) (fun v pid _ _ _ hv => ?_)
    (fun v _ hv => ?_)
  · exact hv.congr (by simp) (by simp)
  · rw [executed_clockTick]
    exact hv.executed

/-- At every point of a tick from the end of `_handle_io_done_proc` on, but
for the one between `move_to_wait` and the `append` that follows it, a process
waits if and only if exactly one of its IOs is to come and the IOs in flight
are the processes that wait. At that one point this is so of every process but
the one that issues the IO. No assertion ever fails. -/
theorem run_onePending (p : Policy) (codes : List (List Instr))
    (hL : 1 ≤ p.ioLength) :
    (∀ k s, midTick p codes k = some s → ∀ pt ∈ points p s,
        (pt.1 = .asleep → Unlisted pt.2) ∧
          (pt.1 ≠ .asleep → OnePending pt.2)) ∧
      ∀ fuel, run p codes fuel ≠ .assertionError := by
  refine ⟨fun k s hk pt ht => ?_, run_no_assertion hL codes⟩
  obtain ⟨hasleep, helse⟩ := points_table hL (midTick_inv hL hk) ht
  exact ⟨hasleep, fun hne => (helse hne).onePending⟩

/-- Two processes whose IOs are in flight at the same time, under a policy
that preempts. -/
theorem run_onePending_two_ios :
    1 ≤ 3 ∧ (∀ k s, midTick ⟨.onIo, .runImmediate, 3⟩
        [[.io, .cpu], [.io, .io]] k = some s →
        ∀ pt ∈ points ⟨.onIo, .runImmediate, 3⟩ s,
          (pt.1 = .asleep → Unlisted pt.2) ∧
            (pt.1 ≠ .asleep → OnePending pt.2)) ∧
      (∀ fuel, run ⟨.onIo, .runImmediate, 3⟩ [[.io, .cpu], [.io, .io]] fuel ≠
        .assertionError) ∧
      (midTick ⟨.onIo, .runImmediate, 3⟩ [[.io, .cpu], [.io, .io]] 3).map
        (fun s => getIosInFlight s.clockTick s) = some 2 := by
  obtain ⟨hpoints, hrun⟩ := run_onePending ⟨.onIo, .runImmediate, 3⟩
    [[.io, .cpu], [.io, .io]] (by decide)
  exact ⟨by decide, hpoints, hrun, by decide⟩

/-- One process with one instruction, an IO: behind `move_to_wait` it waits
and the table has no finish time for it. -/
theorem not_onePending_asleep :
    ¬ ∀ (p : Policy) (codes : List (List Instr)), 1 ≤ p.ioLength →
      ∀ k s, midTick p codes k = some s → ∀ pt ∈ points p s,
        OnePending pt.2 := by
  intro h
  have hval : (midTick ⟨.onIo, .runLater, 5⟩ [[.io]] 1).any (fun s =>
      (points ⟨.onIo, .runLater, 5⟩ s).any fun pt =>
        decide (pt.2.numProcs = 1 ∧ pt.2.state 0 = .wait ∧
          pending pt.2 0 = 0)) = true := by decide
  obtain ⟨s, hs, hany⟩ := Option.any_eq_true _ _ |>.mp hval
  obtain ⟨pt, hpt, hd⟩ := List.any_eq_true.mp hany
  obtain ⟨hn, hw, hp⟩ := of_decide_eq_true hd
  have hone := ((h ⟨.onIo, .runLater, 5⟩ [[.io]] (by decide) 1 s hs pt
    hpt).wait_iff 0 (by omega)).mp hw
  omega

end LearningLinux.ProcessRun
