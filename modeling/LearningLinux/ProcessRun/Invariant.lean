import LearningLinux.ProcessRun.Ops

/-!
# Waiting means one IO to come

The table invariant of the simulator, and with it the rule every later
argument about a tick is an instance of.

`WaitAt t s q` reads the finish times of one process against the clock value
`t`: a waiting process has one finish time beyond `t`, the last on its list,
and any other process has none. While `_handle_io_done_proc` walks the table
the clock has already moved, so the processes still to be visited are read
against the old value and the ones behind against the new one; `Mid` is that
half-way state.

`tick_rule` packages the walk. Whatever survives the end of one IO survives
the whole loop, the assertions hold along the way, and what is left to prove
about a tick is about the two record updates `finished (resumed ..)` and
`executed`.
-/

namespace LearningLinux.ProcessRun

/-- The finish times of `q`, read at clock value `t`. -/
def WaitAt (t : Nat) (s : Sched) (q : Nat) : Prop :=
  (s.state q = .wait ∧ ∃ old f, s.ioFinishTimes q = old ++ [f] ∧
      (∀ x ∈ old, x ≤ t) ∧ t < f) ∨
    (s.state q ≠ .wait ∧ ∀ x ∈ s.ioFinishTimes q, x ≤ t)

/-- Only whether `q` waits matters, not in which other state it is. -/
theorem WaitAt.congr {t : Nat} {s s' : Sched} {q : Nat} (h : WaitAt t s q)
    (hst : s'.state q = .wait ↔ s.state q = .wait)
    (hio : s'.ioFinishTimes q = s.ioFinishTimes q) : WaitAt t s' q := by
  rcases h with ⟨hw, hf⟩ | ⟨hw, hf⟩
  · exact Or.inl ⟨hst.mpr hw, by rw [hio]; exact hf⟩
  · exact Or.inr ⟨fun h => hw (hst.mp h), by rw [hio]; exact hf⟩

/-- A finish time equal to the new clock value is a waiting process's last,
and none of its finish times is later. -/
theorem WaitAt.due {t : Nat} {s : Sched} {q : Nat} (h : WaitAt t s q)
    (hmem : t + 1 ∈ s.ioFinishTimes q) :
    s.state q = .wait ∧ ∀ x ∈ s.ioFinishTimes q, x ≤ t + 1 := by
  rcases h with ⟨hw, old, f, hio, hold, hf⟩ | ⟨-, hall⟩
  · refine ⟨hw, fun x hx => ?_⟩
    rw [hio, List.mem_append, List.mem_singleton] at hmem hx
    have hfe : f = t + 1 := by
      rcases hmem with hm | hm
      · exact absurd (hold _ hm) (by omega)
      · exact hm.symm
    rcases hx with hx | hx
    · exact Nat.le_succ_of_le (hold x hx)
    · omega
  · exact absurd (hall _ hmem) (by omega)

/-- No finish time at the new clock value: the reading moves with it. -/
theorem WaitAt.next {t : Nat} {s : Sched} {q : Nat} (h : WaitAt t s q)
    (hmem : t + 1 ∉ s.ioFinishTimes q) : WaitAt (t + 1) s q := by
  rcases h with ⟨hw, old, f, hio, hold, hf⟩ | ⟨hw, hall⟩
  · have hne : t + 1 ≠ f := by
      intro he
      exact hmem (by rw [hio, he]; simp)
    exact Or.inl ⟨hw, old, f, hio, fun x hx => Nat.le_succ_of_le (hold x hx),
      by omega⟩
  · exact Or.inr ⟨hw, fun x hx => Nat.le_succ_of_le (hall x hx)⟩

/-- The invariant at the end of every tick. -/
structure Inv (s : Sched) : Prop where
  currLt : s.currProc < s.numProcs
  waits : ∀ q < s.numProcs, WaitAt s.clockTick s q

/-- The state inside `_handle_io_done_proc` at clock `t + 1`, with the pids
of `l` still to be visited. -/
structure Mid (t : Nat) (l : List Nat) (s : Sched) : Prop where
  currLt : s.currProc < s.numProcs
  clock : s.clockTick = t + 1
  before : ∀ q < s.numProcs, q ∈ l → WaitAt t s q
  behind : ∀ q < s.numProcs, q ∉ l → WaitAt (t + 1) s q

theorem Mid.inv {t : Nat} {s : Sched} (h : Mid t [] s) : Inv s :=
  ⟨h.currLt, fun q hq => by rw [h.clock]; exact h.behind q hq (by simp)⟩

/-! ## What the updates keep -/

theorem retired_currLt {s : Sched} (h : s.currProc < s.numProcs) :
    (retired s).currProc < (retired s).numProcs := h

theorem promote_wait {s : Sched} (h : s.currProc < s.numProcs) (q : Nat) :
    (promote (others s) s).state q = .wait ↔ s.state q = .wait := by
  rw [promote_state h]
  split
  · next hc => simp [hc.2.2]
  · rfl

theorem finished_wait {s : Sched} (h : s.currProc < s.numProcs) (q : Nat) :
    (finished s).state q = .wait ↔ s.state q = .wait := by
  unfold finished
  split
  · next hc =>
      rw [promote_wait (retired_currLt h)]
      by_cases hq : q = s.currProc
      · subst hq; simp [retired, hc.2]
      · simp [retired, hq]
  · rfl

theorem finished_currLt {s : Sched} (h : s.currProc < s.numProcs) :
    (finished s).currProc < s.numProcs := by
  unfold finished
  split
  · exact promote_currProc_lt (retired_currLt h)
  · exact h

@[simp] theorem finished_numProcs (s : Sched) :
    (finished s).numProcs = s.numProcs := by unfold finished; split <;> rfl
@[simp] theorem finished_code (s : Sched) : (finished s).code = s.code := by
  unfold finished; split <;> rfl
@[simp] theorem finished_ioFinishTimes (s : Sched) :
    (finished s).ioFinishTimes = s.ioFinishTimes := by
  unfold finished; split <;> rfl
@[simp] theorem finished_clockTick (s : Sched) :
    (finished s).clockTick = s.clockTick := by unfold finished; split <;> rfl

section Resumed
variable {b : IoDoneBehavior} {pid : Nat} {s : Sched}

@[simp] theorem resumed_numProcs :
    (resumed b pid s).numProcs = s.numProcs := by
  cases b <;> simp only [resumed]; split <;> rfl
@[simp] theorem resumed_code : (resumed b pid s).code = s.code := by
  cases b <;> simp only [resumed]; split <;> rfl
@[simp] theorem resumed_ioFinishTimes :
    (resumed b pid s).ioFinishTimes = s.ioFinishTimes := by
  cases b <;> simp only [resumed]; split <;> rfl
@[simp] theorem resumed_clockTick :
    (resumed b pid s).clockTick = s.clockTick := by
  cases b <;> simp only [resumed]; split <;> rfl

theorem resumed_currLt (h : s.currProc < s.numProcs) (hp : pid < s.numProcs) :
    (resumed b pid s).currProc < s.numProcs := by
  cases b with
  | runImmediate => exact hp
  | runLater => simp only [resumed]; split <;> assumption

/-- The resumed process is running and current, or it stayed behind ready. -/
theorem resumed_self :
    ((resumed b pid s).state pid = .running ∧
        (resumed b pid s).currProc = pid) ∨
      ((resumed b pid s).state pid = .ready ∧ b = .runLater ∧
        (resumed b pid s).currProc = s.currProc) := by
  cases b with
  | runImmediate => exact Or.inl ⟨by simp [resumed], rfl⟩
  | runLater =>
      simp only [resumed]
      split
      · exact Or.inl ⟨by simp, rfl⟩
      · exact Or.inr ⟨by simp, trivial, rfl⟩

/-- Another process keeps its state, unless it was the running current one
and an immediate resumption takes its place. -/
theorem resumed_other {q : Nat} (hq : q ≠ pid) :
    (resumed b pid s).state q = s.state q ∨
      (b = .runImmediate ∧ q = s.currProc ∧ s.state q = .running ∧
        (resumed b pid s).state q = .ready) := by
  cases b with
  | runLater => simp only [resumed]; split <;> exact Or.inl (by simp [hq])
  | runImmediate =>
      simp only [resumed]
      split
      · next hc =>
          by_cases hqc : q = s.currProc
          · subst hqc; exact Or.inr ⟨trivial, rfl, hc.2, by simp [hq]⟩
          · exact Or.inl (by simp [hq, hqc])
      · exact Or.inl (by simp [hq])

theorem resumed_wait (hp : s.state pid = .wait) (q : Nat) :
    (resumed b pid s).state q = .wait ↔ q ≠ pid ∧ s.state q = .wait := by
  by_cases hq : q = pid
  · subst hq
    rcases @resumed_self b q s with ⟨h, -⟩ | ⟨h, -, -⟩ <;>
      simp [h]
  · rcases resumed_other (b := b) (s := s) hq with h | ⟨-, -, hr, h⟩
    · simp [h, hq]
    · simp [h, hr]

end Resumed

/-! ## The walk over the table -/

theorem Mid.ioDone {t : Nat} {b : IoDoneBehavior} {pid : Nat} {l : List Nat}
    {s : Sched} (h : Mid t (pid :: l) s) (hl : pid ∉ l)
    (hp : pid < s.numProcs) (hdue : t + 1 ∈ s.ioFinishTimes pid) :
    Mid t l (finished (resumed b pid s)) := by
  obtain ⟨hw, hall⟩ := (h.before pid hp (by simp)).due hdue
  have hcl : (resumed b pid s).currProc < (resumed b pid s).numProcs := by
    rw [resumed_numProcs]; exact resumed_currLt h.currLt hp
  have hst : ∀ q, (finished (resumed b pid s)).state q = .wait ↔
      q ≠ pid ∧ s.state q = .wait := fun q => by
    rw [finished_wait hcl, resumed_wait hw]
  refine ⟨?_, by simpa using h.clock, ?_, ?_⟩
  · rw [finished_numProcs]; exact finished_currLt hcl
  · intro q hq hql
    have hne : q ≠ pid := fun he => hl (he ▸ hql)
    simp only [finished_numProcs, resumed_numProcs] at hq
    exact (h.before q hq (by simp [hql])).congr (by simp [hst, hne]) (by simp)
  · intro q hq hql
    simp only [finished_numProcs, resumed_numProcs] at hq
    by_cases hne : q = pid
    · subst hne
      exact Or.inr ⟨by simp [hst], by simpa using hall⟩
    · exact (h.behind q hq (by simp [hql, hne])).congr (by simp [hst, hne])
        (by simp)

theorem Mid.skip {t : Nat} {pid : Nat} {l : List Nat} {s : Sched}
    (h : Mid t (pid :: l) s) (hl : pid ∉ l)
    (hdue : t + 1 ∉ s.ioFinishTimes pid) : Mid t l s := by
  refine ⟨h.currLt, h.clock, fun q hq hql => h.before q hq (by simp [hql]), ?_⟩
  intro q hq hql
  by_cases hne : q = pid
  · subst hne; exact (h.before q hq (by simp)).next hdue
  · exact h.behind q hq (by simp [hql, hne])

/-- The loop of `_handle_io_done_proc` fails no assertion, and it preserves
what the end of one IO preserves. -/
theorem handleIoDoneLoop_rule {t : Nat} {b : IoDoneBehavior}
    {P : Sched → Prop}
    (hP : ∀ s pid, s.currProc < s.numProcs → pid < s.numProcs →
      s.state pid = .wait → P s → P (finished (resumed b pid s))) :
    ∀ {l : List Nat} {s : Sched}, l.Nodup → (∀ q ∈ l, q < s.numProcs) →
      Mid t l s → P s →
      ∃ s', handleIoDoneLoop (t + 1) b l s = some s' ∧ Mid t [] s' ∧ P s' := by
  intro l
  induction l with
  | nil => intro s _ _ hm hs; exact ⟨s, rfl, hm, hs⟩
  | cons pid rest ih =>
      intro s hnd hlt hm hs
      obtain ⟨hnew, hrest⟩ := List.nodup_cons.mp hnd
      have hp := hlt pid (by simp)
      by_cases hdue : t + 1 ∈ s.ioFinishTimes pid
      · have hw := ((hm.before pid hp (by simp)).due hdue).1
        rw [handleIoDoneLoop, if_pos hdue, ioDone_eq hw]
        refine ih hrest (fun q hq => ?_) (hm.ioDone hnew hp hdue)
          (hP s pid hm.currLt hp hw hs)
        simpa using hlt q (by simp [hq])
      · rw [handleIoDoneLoop, if_neg hdue]
        exact ih hrest (fun q hq => hlt q (by simp [hq])) (hm.skip hnew hdue)
          hs

/-! ## The rest of the tick -/

theorem fetch_fields (s : Sched) :
    (fetch s).2.numProcs = s.numProcs ∧
      (fetch s).2.ioFinishTimes = s.ioFinishTimes ∧
      (fetch s).2.clockTick = s.clockTick := by
  unfold fetch popNextInstruction
  split
  · cases s.code s.currProc <;> exact ⟨rfl, rfl, rfl⟩
  · exact ⟨rfl, rfl, rfl⟩

theorem waiting_inv {p : Policy} {s : Sched} (hL : 1 ≤ p.ioLength)
    (h : Inv s) (hr : s.state s.currProc = .running) : Inv (waiting p s) := by
  refine ⟨h.currLt, fun q hq => ?_⟩
  by_cases hqc : q = s.currProc
  · subst hqc
    rcases h.waits s.currProc h.currLt with ⟨hw, -⟩ | ⟨-, hall⟩
    · rw [hr] at hw; cases hw
    · exact Or.inl ⟨by simp [waiting], s.ioFinishTimes s.currProc,
        s.clockTick + p.ioLength, by simp [waiting], hall,
        by simp only [waiting]; omega⟩
  · exact (h.waits q hq).congr (by simp [waiting, hqc])
      (by simp [waiting, hqc])

theorem promote_inv {s : Sched} (h : Inv s) : Inv (promote (others s) s) :=
  ⟨promote_currProc_lt h.currLt, fun q hq =>
    (h.waits q hq).congr (promote_wait h.currLt q) rfl⟩

theorem finished_inv {s : Sched} (h : Inv s) : Inv (finished s) := by
  refine ⟨by simpa using finished_currLt h.currLt, fun q hq => ?_⟩
  rw [finished_clockTick]
  exact (h.waits q (by simpa using hq)).congr (finished_wait h.currLt q)
    (by simp)

theorem issued_inv {p : Policy} {s : Sched} (hL : 1 ≤ p.ioLength)
    (h : Inv s) (hr : s.state s.currProc = .running) : Inv (issued p s) := by
  unfold issued
  split
  · exact promote_inv (waiting_inv hL h hr)
  · exact waiting_inv hL h hr

theorem fetched_inv {s : Sched} (h : Inv s) : Inv (countIo (fetch s).2) := by
  obtain ⟨hn, hio, hc⟩ := fetch_fields s
  refine ⟨by simpa [hn, fetch_currProc] using h.currLt, fun q hq => ?_⟩
  rw [countIo_clockTick, hc]
  exact (h.waits q (by simpa [hn] using hq)).congr (by simp [fetch_state])
    (by simp [hio])

theorem executed_inv {p : Policy} {s : Sched} (hL : 1 ≤ p.ioLength)
    (h : Inv s) : Inv (executed p s) := by
  unfold executed
  refine finished_inv ?_
  split
  · next hi =>
      refine issued_inv hL (fetched_inv h) ?_
      rw [countIo_state, countIo_currProc, fetch_state, fetch_currProc]
      exact running_of_fetch hi
  · exact fetched_inv h

/-- One tick, taken apart at the end of `_handle_io_done_proc`: no assertion
fails, and a property that survives the moved clock and the end of an IO holds
there. -/
theorem tick_split {p : Policy} {s : Sched} {P : Sched → Prop} (h : Inv s)
    (hclock : P { s with clockTick := s.clockTick + 1 })
    (hio : ∀ s pid, s.currProc < s.numProcs → pid < s.numProcs →
      s.state pid = .wait → P s → P (finished (resumed p.ioDone pid s))) :
    ∃ s₁, handleIoDoneProc (s.clockTick + 1) p.ioDone
        { s with clockTick := s.clockTick + 1 } = some s₁ ∧
      Inv s₁ ∧ P s₁ ∧ tick p s = some (executed p s₁) := by
  have hmid : Mid s.clockTick (List.range s.numProcs)
      { s with clockTick := s.clockTick + 1 } :=
    ⟨h.currLt, rfl, fun q hq _ => h.waits q hq,
      fun q hq hnot => absurd (List.mem_range.mpr hq) hnot⟩
  obtain ⟨s₁, hrun, hm, hp⟩ := handleIoDoneLoop_rule hio List.nodup_range
    (fun q hq => List.mem_range.mp hq) hmid hclock
  refine ⟨s₁, hrun, hm.inv, hp, ?_⟩
  simp only [tick, handleIoDoneProc, getAllPids, Option.bind_eq_bind]
  rw [hrun, Option.bind_some, execute_eq]

/-- The proof rule for one tick. No assertion fails, the table invariant is
kept, and a property that survives the moved clock, the end of an IO and the
rest of the tick survives the tick. -/
theorem tick_rule {p : Policy} {s : Sched} {P Q : Sched → Prop}
    (hL : 1 ≤ p.ioLength) (h : Inv s)
    (hclock : P { s with clockTick := s.clockTick + 1 })
    (hio : ∀ s pid, s.currProc < s.numProcs → pid < s.numProcs →
      s.state pid = .wait → P s → P (finished (resumed p.ioDone pid s)))
    (hexec : ∀ s, Inv s → P s → Q (executed p s)) :
    ∃ s', tick p s = some s' ∧ Inv s' ∧ Q s' := by
  obtain ⟨s₁, -, hi, hp, ht⟩ := tick_split h hclock hio
  exact ⟨executed p s₁, ht, executed_inv hL hi, hexec s₁ hi hp⟩

/-- The table invariant holds when the loop is entered. -/
theorem start_inv {codes : List (List Instr)} {s : Sched}
    (hn : codes.length ≠ 0) (h : start codes = some s) : Inv s := by
  simp only [start, moveToRunning, moveTo, init, if_true,
    Option.some.injEq] at h
  subst h
  refine ⟨Nat.pos_of_ne_zero hn, fun q _ => Or.inr ⟨?_, by simp⟩⟩
  by_cases hq : q = 0
  · subst hq; simp
  · simp [hq]

end LearningLinux.ProcessRun
