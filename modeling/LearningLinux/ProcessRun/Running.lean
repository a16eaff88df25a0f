import LearningLinux.ProcessRun.Work

/-!
# Who is running, and for how long

`_next_proc` moves every ready process to running and keeps only the last of
them as the current one. A process it promoted and did not keep is an
`Orphan`: it is running, it never executes an instruction, and no operation
of a tick ever changes its state again. So one call of `_next_proc` with two
ready processes breaks both halves of the simulator's contract for good, the
single running process and the end of the run.

Three invariants split the inputs between them. `First` is the phase in which
process 0 has the table to itself; with three processes or more it ends in an
orphan. `Stuck` is what `SWITCH_ON_END` and `IO_RUN_LATER` make of an IO
while somebody else is ready: the process comes back from it and is never
picked again, and nobody runs. `Good` covers the rest, at most two processes
and no such IO; there a tick always has something to do and the work of
`Work.lean` runs out.
-/

namespace LearningLinux.ProcessRun

/-! ## The cases of a tick after the IO completions -/

/-- The current process with its first instruction taken off. -/
def popped (rest : List Instr) (s : Sched) : Sched :=
  { s with
    code := Function.update s.code s.currProc rest
    cpuBusy := s.cpuBusy + 1 }

theorem executed_cases (p : Policy) (s : Sched) :
    (s.state s.currProc ≠ .running ∧
        executed p s = finished (countIo s)) ∨
      (s.state s.currProc = .running ∧ s.code s.currProc = [] ∧
        executed p s = finished (countIo { s with cpuBusy := s.cpuBusy + 1 })) ∨
      (∃ rest, s.state s.currProc = .running ∧
        s.code s.currProc = .cpu :: rest ∧
        executed p s = finished (countIo (popped rest s))) ∨
      (∃ rest, s.state s.currProc = .running ∧
        s.code s.currProc = .io :: rest ∧
        executed p s = finished (issued p (countIo (popped rest s)))) := by
  by_cases hr : s.state s.currProc = .running
  · cases hc : s.code s.currProc with
    | nil =>
        refine Or.inr (Or.inl ⟨hr, rfl, ?_⟩)
        simp [executed, fetch, popNextInstruction, hr, hc]
    | cons i rest =>
        cases i with
        | cpu =>
            refine Or.inr (Or.inr (Or.inl ⟨rest, hr, rfl, ?_⟩))
            simp [executed, fetch, popNextInstruction, hr, hc, popped]
        | io =>
            refine Or.inr (Or.inr (Or.inr ⟨rest, hr, rfl, ?_⟩))
            simp [executed, fetch, popNextInstruction, hr, hc, popped]
  · exact Or.inl ⟨hr, by simp [executed, fetch, hr]⟩

theorem finished_of_not_running {s : Sched}
    (h : s.state s.currProc ≠ .running) : finished s = s := by
  rw [finished, if_neg fun hc => h hc.2]

theorem finished_of_code {s : Sched} (h : s.code s.currProc ≠ []) :
    finished s = s := by
  rw [finished, if_neg fun hc => h hc.1]

/-! ## Orphans -/

/-- A process that is running without being the current one, and has never
issued an IO. -/
structure Orphan (r : Nat) (s : Sched) : Prop where
  lt : r < s.numProcs
  running : s.state r = .running
  notCurr : s.currProc ≠ r
  noIo : s.ioFinishTimes r = []

theorem Orphan.promote {r : Nat} {s : Sched} (h : Orphan r s)
    (hc : s.currProc < s.numProcs) : Orphan r (promote (others s) s) := by
  refine ⟨h.lt, ?_, ?_, h.noIo⟩
  · rw [promote_state hc, h.running]
    simp
  · rcases promote_currProc hc with ⟨q, he, -, -, hq⟩ | ⟨he, -⟩
    · rw [he]
      rintro rfl
      rw [h.running] at hq
      cases hq
    · rw [he]; exact h.notCurr

theorem Orphan.finished {r : Nat} {s : Sched} (h : Orphan r s)
    (hc : s.currProc < s.numProcs) : Orphan r (finished s) := by
  rw [ProcessRun.finished]
  split
  · have hret : Orphan r (retired s) :=
      ⟨h.lt, by simp [retired, Ne.symm h.notCurr, h.running], h.notCurr,
        h.noIo⟩
    exact hret.promote (retired_currLt hc)
  · exact h

theorem Orphan.resumed {r : Nat} {b : IoDoneBehavior} {pid : Nat} {s : Sched}
    (h : Orphan r s) (hw : s.state pid = .wait) : Orphan r (resumed b pid s) := by
  have hne : r ≠ pid := by
    rintro rfl
    rw [h.running] at hw
    cases hw
  refine ⟨by simpa using h.lt, ?_, ?_, by simpa using h.noIo⟩
  · rcases resumed_other (b := b) (s := s) hne with he | ⟨-, hr, -, -⟩
    · rw [he, h.running]
    · exact absurd hr.symm h.notCurr
  · rcases @resumed_self b pid s with ⟨-, he⟩ | ⟨-, -, he⟩
    · rw [he]; exact Ne.symm hne
    · rw [he]; exact h.notCurr

theorem Orphan.countIo {r : Nat} {s : Sched} (h : Orphan r s) :
    Orphan r (countIo s) :=
  ⟨by simpa using h.lt, by simpa using h.running, by simpa using h.notCurr,
    by simpa using h.noIo⟩

theorem Orphan.waiting {r : Nat} {p : Policy} {s : Sched} (h : Orphan r s) :
    Orphan r (waiting p s) :=
  ⟨h.lt, by simp [ProcessRun.waiting, Ne.symm h.notCurr, h.running],
    h.notCurr, by simp [ProcessRun.waiting, Ne.symm h.notCurr, h.noIo]⟩

theorem Orphan.executed {r : Nat} {p : Policy} {s : Sched} (h : Orphan r s)
    (hs : Inv s) : Orphan r (executed p s) := by
  have hf : Orphan r (ProcessRun.countIo (fetch s).2) := by
    obtain ⟨hn, hio, -⟩ := fetch_fields s
    exact Orphan.countIo ⟨by rw [hn]; exact h.lt,
      by rw [fetch_state]; exact h.running,
      by rw [fetch_currProc]; exact h.notCurr, by rw [hio]; exact h.noIo⟩
  rw [ProcessRun.executed]
  refine Orphan.finished ?_ (executed_currLt hs)
  split
  · rw [issued]
    split
    · exact hf.waiting.promote (fetched_inv hs).currLt
    · exact hf.waiting
  · exact hf

/-- Nothing a tick does reaches an orphan. -/
theorem Orphan.tick {r : Nat} {p : Policy} {s : Sched} (h : Orphan r s)
    (hL : 1 ≤ p.ioLength) (hs : Inv s) :
    ∃ s', tick p s = some s' ∧ Inv s' ∧ Orphan r s' :=
  tick_rule hL hs (P := Orphan r) ⟨h.lt, h.running, h.notCurr, h.noIo⟩
    (fun s pid hc hp hw ho => (ho.resumed hw).finished (by
      rw [resumed_numProcs]; exact resumed_currLt hc hp))
    (fun _ hi ho => ho.executed hi)

theorem hasActiveProc_of {s : Sched} {q : Nat} (hq : q < s.numProcs)
    (hs : s.state q ≠ .done) : hasActiveProc s = true := by
  rw [hasActiveProc, decide_eq_true_eq, List.countP_pos_iff]
  exact ⟨q, List.mem_range.mpr hq, by simpa using hs⟩

theorem not_hasActiveProc {s : Sched} (h : ¬ hasActiveProc s = true) {q : Nat}
    (hq : q < s.numProcs) : s.state q = .done := by
  by_contra hs
  exact h (hasActiveProc_of hq hs)

/-- Two ready processes and a `_next_proc` leave an orphan behind. -/
theorem promote_orphan {s : Sched} (h3 : 3 ≤ s.numProcs)
    (hc : s.currProc = 0)
    (hready : ∀ q < s.numProcs, q ≠ 0 → s.state q = .ready ∧
      s.ioFinishTimes q = []) : ∃ r, Orphan r (promote (others s) s) := by
  have hlt : s.currProc < s.numProcs := by omega
  have hst : ∀ q < s.numProcs, q ≠ 0 →
      (promote (others s) s).state q = .running := by
    intro q hq hne
    rw [promote_state hlt, if_pos ⟨hq, by rw [hc]; exact hne,
      (hready q hq hne).1⟩]
  by_cases h1 : (promote (others s) s).currProc = 1
  · exact ⟨2, ⟨by show 2 < s.numProcs; omega, hst 2 (by omega) (by omega),
      by rw [h1]; omega, (hready 2 (by omega) (by omega)).2⟩⟩
  · exact ⟨1, ⟨by show 1 < s.numProcs; omega, hst 1 (by omega) (by omega), h1,
      (hready 1 (by omega) (by omega)).2⟩⟩

/-! ## The first phase

Process 0 is the current one and nobody else has moved. It is running, or,
when the policy lets it keep its place, back on its own IO. -/

structure First (p : Policy) (s : Sched) : Prop where
  three : 3 ≤ s.numProcs
  curr : s.currProc = 0
  rest : ∀ q < s.numProcs, q ≠ 0 → s.state q = .ready ∧
    s.ioFinishTimes q = []
  zero : s.state 0 = .running ∨
    (s.state 0 = .wait ∧ p.switch = .onEnd ∧ p.ioDone = .runImmediate)
  noIo : p.switch = .onEnd → p.ioDone = .runLater → Instr.io ∉ s.code 0

theorem First.countIo {p : Policy} {s : Sched} (h : First p s) :
    First p (countIo s) :=
  ⟨by simpa using h.three, by simpa using h.curr, by simpa using h.rest,
    by simpa using h.zero, by simpa using h.noIo⟩

/-- Retiring process 0 ends the phase in an orphan. -/
theorem First.finished {p : Policy} {s : Sched} (h : First p s) :
    First p (finished s) ∨ ∃ r, Orphan r (finished s) := by
  rw [ProcessRun.finished]
  split
  · refine Or.inr (promote_orphan (s := retired s) h.three h.curr ?_)
    intro q hq hne
    have hq' : q ≠ s.currProc := by rw [h.curr]; exact hne
    exact ⟨by simp [retired, hq', (h.rest q hq hne).1],
      (h.rest q hq hne).2⟩
  · exact Or.inl h

theorem First.resumed {p : Policy} {pid : Nat} {s : Sched} (h : First p s)
    (hp : pid < s.numProcs) (hw : s.state pid = .wait) :
    First p (resumed p.ioDone pid s) := by
  have hpid : pid = 0 := by
    by_contra hne
    rw [(h.rest pid hp hne).1] at hw
    cases hw
  subst hpid
  obtain ⟨-, hsw, hio⟩ := h.zero.resolve_left (by rw [hw]; simp)
  rw [hio]
  refine ⟨h.three, rfl, fun q hq hne => ?_, Or.inl (by simp [ProcessRun.resumed]),
    fun _ hl => by rw [hio] at hl; cases hl⟩
  refine ⟨?_, (h.rest q hq hne).2⟩
  simp [ProcessRun.resumed, h.curr, hne, (h.rest q hq hne).1]

theorem First.executed {p : Policy} {s : Sched} (h : First p s) (hs : Inv s) :
    First p (executed p s) ∨ ∃ r, Orphan r (executed p s) := by
  have hother : ∀ q, q ≠ 0 → q ≠ s.currProc := fun q hq => by
    rw [h.curr]; exact hq
  rcases executed_cases p s with ⟨-, he⟩ | ⟨-, -, he⟩ | ⟨rest, -, hc, he⟩ |
      ⟨rest, hr, hc, he⟩
  · rw [he]; exact h.countIo.finished
  · rw [he]
    exact (First.countIo (s := { s with cpuBusy := s.cpuBusy + 1 })
      ⟨h.three, h.curr, h.rest, h.zero, h.noIo⟩).finished
  · rw [he]
    refine (First.countIo (s := popped rest s)
      ⟨h.three, h.curr, h.rest, h.zero, ?_⟩).finished
    intro hsw hio hmem
    refine h.noIo hsw hio ?_
    rw [h.curr] at hc
    rw [hc]
    simpa [popped, h.curr] using hmem
  · -- an IO: `SWITCH_ON_IO` promotes the others, `SWITCH_ON_END` waits
    have hwait : ∀ q < s.numProcs, q ≠ 0 →
        (waiting p (ProcessRun.countIo (popped rest s))).state q = .ready ∧
        (waiting p (ProcessRun.countIo (popped rest s))).ioFinishTimes q =
          [] := by
      intro q hq hne
      simpa [waiting, popped, hother q hne] using h.rest q hq hne
    rw [he]
    cases hsw : p.switch with
    | onIo =>
        right
        have hn : (waiting p (ProcessRun.countIo (popped rest s))).numProcs =
            s.numProcs := by simp [waiting, popped]
        obtain ⟨r, ho⟩ := promote_orphan
          (s := waiting p (ProcessRun.countIo (popped rest s)))
          (by rw [hn]; exact h.three) (by simp [waiting, popped, h.curr])
          (by rw [hn]; exact hwait)
        refine ⟨r, ?_⟩
        rw [issued, if_pos hsw]
        refine ho.finished (promote_currProc_lt ?_)
        rw [hn]
        simpa [waiting, popped] using hs.currLt
    | onEnd =>
        left
        have hio : p.ioDone = .runImmediate := by
          cases hio : p.ioDone with
          | runImmediate => rfl
          | runLater =>
              rw [h.curr] at hc
              exact absurd (h.noIo hsw hio) (by rw [hc]; simp)
        rw [issued, if_neg (by rw [hsw]; simp), finished_of_not_running
          (by simp [waiting])]
        refine ⟨by simpa [waiting, popped] using h.three,
          by simpa [waiting, popped] using h.curr,
          by simpa [waiting, popped] using hwait,
          Or.inr ⟨by simp [waiting, popped, h.curr], hsw, hio⟩, ?_⟩
        intro _ hl
        rw [hio] at hl
        cases hl

/-- The first phase goes on or ends in an orphan. -/
theorem First.tick {p : Policy} {s : Sched} (h : First p s)
    (hL : 1 ≤ p.ioLength) (hs : Inv s) :
    ∃ s', tick p s = some s' ∧ Inv s' ∧ (First p s' ∨ ∃ r, Orphan r s') := by
  refine tick_rule hL hs (P := fun t => First p t ∨ ∃ r, Orphan r t)
    (Or.inl ⟨h.three, h.curr, h.rest, h.zero, h.noIo⟩) ?_ ?_
  · intro t pid hc hp hw ht
    have hcl : (ProcessRun.resumed p.ioDone pid t).currProc <
        (ProcessRun.resumed p.ioDone pid t).numProcs := by
      rw [resumed_numProcs]; exact resumed_currLt hc hp
    rcases ht with ht | ⟨r, ho⟩
    · exact (ht.resumed hp hw).finished
    · exact Or.inr ⟨r, (ho.resumed hw).finished hcl⟩
  · intro t hi ht
    rcases ht with ht | ⟨r, ho⟩
    · exact ht.executed hi
    · exact Or.inr ⟨r, ho.executed hi⟩

/-- With three processes or more the first phase does end. -/
theorem First.orphan {p : Policy} {s : Sched} (h : First p s)
    (hL : 1 ≤ p.ioLength) (hs : Inv s) :
    ∃ k s', Lib.iter (loopStep p) (k + 1) s = some s' ∧ Inv s' ∧
      ∃ r, Orphan r s' := by
  have hmove : ∀ t, Inv t ∧ First p t → ∃ t', loopStep p t = some t' ∧
      ((Inv t' ∧ ∃ r, Orphan r t') ∨
        ((Inv t' ∧ First p t') ∧ work p t' < work p t)) := by
    intro t ⟨hi, hf⟩
    have h3 := hf.three
    obtain ⟨t', ht, hi', hor⟩ := hf.tick hL hi
    obtain ⟨t'', ht', hlt⟩ := tick_work_lt hL hi (by
      rcases hf.zero with hz | ⟨hz, -, -⟩
      · exact Or.inl (by rw [hf.curr]; exact hz)
      · exact Or.inr ⟨0, by omega, hz⟩)
    obtain rfl : t' = t'' := Option.some.inj (ht.symm.trans ht')
    refine ⟨t', ?_, hor.elim (fun hf' => Or.inr ⟨⟨hi', hf'⟩, hlt⟩)
      (fun ho => Or.inl ⟨hi', ho⟩)⟩
    rw [loopStep, if_pos (hasActiveProc_of (q := 1) (by omega)
      (by rw [(hf.rest 1 (by omega) (by omega)).1]; simp)), ht]
  obtain ⟨k, s', hk, hi, ho⟩ := Lib.exists_iter_of_measure (work p) hmove
    ⟨hs, h⟩
  cases k with
  | zero =>
      obtain ⟨r, ho⟩ := ho
      cases hk
      exact absurd ho.running (by
        rw [(h.rest r ho.lt (by rw [← h.curr]; exact Ne.symm ho.notCurr)).1]
        simp)
  | succ k => exact ⟨k, s', hk, hi, ho⟩

/-! ## An IO that nobody comes back for

Under `SWITCH_ON_END` the process that issued the IO stays the current one,
and under `IO_RUN_LATER` it is picked again only when no other process is
ready. With a second process in the table that is never the case. -/

structure Stuck (s : Sched) : Prop where
  two : 2 ≤ s.numProcs
  curr : s.currProc = 0
  rest : ∀ q < s.numProcs, q ≠ 0 → s.state q = .ready
  zero : s.state 0 = .wait ∨ s.state 0 = .ready ∨
    (s.state 0 = .running ∧ Instr.io ∈ s.code 0)

theorem Stuck.countIo {s : Sched} (h : Stuck s) : Stuck (countIo s) :=
  ⟨by simpa using h.two, by simpa using h.curr, by simpa using h.rest,
    by simpa using h.zero⟩

theorem Stuck.finished {s : Sched} (h : Stuck s) : finished s = s := by
  rcases h.zero with hz | hz | ⟨-, hz⟩
  · exact finished_of_not_running (by rw [h.curr, hz]; simp)
  · exact finished_of_not_running (by rw [h.curr, hz]; simp)
  · exact finished_of_code (by rw [h.curr]; exact List.ne_nil_of_mem hz)

/-- Coming back, process 0 counts itself and process 1. -/
theorem Stuck.resumed {pid : Nat} {s : Sched} (h : Stuck s)
    (hp : pid < s.numProcs) (hw : s.state pid = .wait) :
    Stuck (resumed .runLater pid s) := by
  have hpid : pid = 0 := by
    by_contra hne
    rw [h.rest pid hp hne] at hw
    cases hw
  subst hpid
  have h2 := h.two
  have hst : ∀ q < s.numProcs,
      Function.update s.state 0 .ready q = .ready := by
    intro q hq
    by_cases hne : q = 0
    · subst hne; simp
    · simp [hne, h.rest q hq hne]
  have hcount : getNumRunnable
      { s with state := Function.update s.state 0 .ready } = s.numProcs := by
    rw [getNumRunnable, List.countP_eq_length.mpr]
    · simp [getAllPids]
    · intro q hq
      simp only [hst q (List.mem_range.mp hq)]
      rfl
  simp only [ProcessRun.resumed, hcount]
  rw [if_neg (by omega)]
  exact ⟨h.two, h.curr, fun q hq hne => hst q hq,
    Or.inr (Or.inl (hst 0 (by omega)))⟩

theorem Stuck.executed {p : Policy} {s : Sched} (h : Stuck s)
    (hsw : p.switch = .onEnd) : Stuck (executed p s) := by
  have hio : s.state s.currProc = .running → Instr.io ∈ s.code 0 := by
    intro hr
    rw [h.curr] at hr
    rcases h.zero with hz | hz | ⟨-, hz⟩
    · rw [hr] at hz; cases hz
    · rw [hr] at hz; cases hz
    · exact hz
  rcases executed_cases p s with ⟨-, he⟩ | ⟨hr, hc, -⟩ | ⟨rest, hr, hc, he⟩ |
      ⟨rest, hr, hc, he⟩
  · rw [he, h.countIo.finished]
    exact h.countIo
  · have hmem := hio hr
    rw [h.curr] at hc
    rw [hc] at hmem
    cases hmem
  · have hmem := hio hr
    rw [h.curr] at hc hr
    rw [hc] at hmem
    have hpop : Stuck (popped rest s) :=
      ⟨h.two, h.curr, h.rest, Or.inr (Or.inr ⟨hr, by
        simpa [popped, h.curr] using hmem⟩)⟩
    rw [he, hpop.countIo.finished]
    exact hpop.countIo
  · have hwait : Stuck (waiting p (ProcessRun.countIo (popped rest s))) := by
      refine ⟨by simpa [waiting, popped] using h.two,
        by simpa [waiting, popped] using h.curr, ?_,
        Or.inl (by simp [waiting, popped, h.curr])⟩
      intro q hq hne
      have hlt : q < s.numProcs := by simpa [waiting, popped] using hq
      simp [waiting, popped, h.curr, hne, h.rest q hlt hne]
    rw [he, issued, if_neg (by rw [hsw]; simp), hwait.finished]
    exact hwait

theorem Stuck.tick {p : Policy} {s : Sched} (h : Stuck s)
    (hL : 1 ≤ p.ioLength) (hs : Inv s) (hsw : p.switch = .onEnd)
    (hio : p.ioDone = .runLater) :
    ∃ s', tick p s = some s' ∧ Inv s' ∧ Stuck s' := by
  refine tick_rule hL hs (P := Stuck) ⟨h.two, h.curr, h.rest, h.zero⟩ ?_
    (fun _ _ ht => ht.executed hsw)
  intro t pid _ hp hw ht
  rw [hio]
  have hr := ht.resumed hp hw
  rw [hr.finished]
  exact hr

/-! ## At most two processes

`quiet` is when nobody may be ready: with `SWITCH_ON_IO` as soon as the
current process does not run, with `SWITCH_ON_END` when it is done, and
under `IO_RUN_LATER` already when it has an IO before it. -/

def quiet (p : Policy) (s : Sched) : Prop :=
  match p.switch, p.ioDone with
  | .onIo, _ => s.state s.currProc ≠ .running
  | .onEnd, .runImmediate => s.state s.currProc = .done
  | .onEnd, .runLater =>
      s.state s.currProc ≠ .running ∨ Instr.io ∈ s.code s.currProc

structure Good (p : Policy) (s : Sched) : Prop where
  few : s.numProcs ≤ 2
  single : ∀ q < s.numProcs, s.state q = .running → q = s.currProc
  notReady : s.state s.currProc ≠ .ready
  idle : quiet p s → ∀ q < s.numProcs, s.state q ≠ .ready
  alone : p.switch = .onEnd →
    ∀ q < s.numProcs, s.state q = .wait → q = s.currProc
  doneEmpty : ∀ q < s.numProcs, s.state q = .done → s.code q = []

theorem quiet_of_done {p : Policy} {s : Sched}
    (h : s.state s.currProc = .done) : quiet p s := by
  rw [quiet]
  split
  · rw [h]; simp
  · exact h
  · exact Or.inl (by rw [h]; simp)

theorem Good.countIo {p : Policy} {s : Sched} (h : Good p s) :
    Good p (countIo s) := by
  rw [ProcessRun.countIo]
  split
  · exact ⟨h.few, h.single, h.notReady, h.idle, h.alone, h.doneEmpty⟩
  · exact h

/-- `_next_proc` where it works: nobody runs, and of the at most two
processes at most one is ready. -/
theorem good_promote {p : Policy} {s : Sched} (hc : s.currProc < s.numProcs)
    (hfew : s.numProcs ≤ 2) (hrun : ∀ q < s.numProcs, s.state q ≠ .running)
    (hready : s.state s.currProc ≠ .ready)
    (hwait : p.switch = .onEnd → ∀ q < s.numProcs, s.state q ≠ .wait)
    (hdone : ∀ q < s.numProcs, s.state q = .done → s.code q = []) :
    Good p (promote (others s) s) := by
  have hst := promote_state hc
  have hnone : ∀ q < s.numProcs, (promote (others s) s).state q ≠ .ready := by
    intro q hq
    rw [hst]
    split
    · simp
    · next hn =>
        intro hr
        exact hn ⟨hq, fun he => hready (he ▸ hr), hr⟩
  refine ⟨hfew, ?_, hnone _ (promote_currProc_lt hc), fun _ => hnone, ?_, ?_⟩
  · intro q hq hr
    replace hq : q < s.numProcs := hq
    rw [hst] at hr
    split at hr
    · next hn =>
        rcases promote_currProc hc with ⟨q', he, hq', hne, -⟩ | ⟨-, hno⟩
        · rw [he]; omega
        · exact absurd hn.2.2 (hno q hq hn.2.1)
    · exact absurd hr (hrun q hq)
  · intro hsw q hq hw
    exact absurd ((promote_wait hc q).mp hw) (hwait hsw q hq)
  · intro q hq hd
    rw [hst] at hd
    split at hd
    · cases hd
    · exact hdone q hq hd

theorem Good.finished {p : Policy} {s : Sched} (h : Good p s)
    (hc : s.currProc < s.numProcs) : Good p (finished s) := by
  rw [ProcessRun.finished]
  split
  · next hf =>
      have hst : ∀ q, q ≠ s.currProc → (retired s).state q = s.state q :=
        fun q hq => by simp [retired, hq]
      have hself : (retired s).state s.currProc = .done := by simp [retired]
      refine good_promote (retired_currLt hc) h.few ?_ ?_ ?_ ?_
      · intro q hq hr
        by_cases hqc : q = s.currProc
        · rw [hqc, hself] at hr; cases hr
        · rw [hst q hqc] at hr
          exact hqc (h.single q hq hr)
      · show (retired s).state s.currProc ≠ .ready
        rw [hself]; simp
      · intro hsw q hq hw
        by_cases hqc : q = s.currProc
        · rw [hqc, hself] at hw; cases hw
        · rw [hst q hqc] at hw
          exact hqc (h.alone hsw q hq hw)
      · intro q hq hd
        by_cases hqc : q = s.currProc
        · rw [hqc]; exact hf.1
        · rw [hst q hqc] at hd
          exact h.doneEmpty q hq hd
  · exact h

/-- One runnable process in the table, and it is `a`. -/
theorem getNumRunnable_eq_one {s : Sched} {a : Nat} (ha : a < s.numProcs)
    (hr : s.state a = .ready) :
    getNumRunnable s = 1 ↔ ∀ b < s.numProcs, b ≠ a →
      s.state b ≠ .ready ∧ s.state b ≠ .running := by
  have hmem : ∀ b, b ∈ (getAllPids s).filter (fun pid =>
      s.state pid == .ready || s.state pid == .running) ↔
      b < s.numProcs ∧ (s.state b = .ready ∨ s.state b = .running) := by
    intro b
    simp [getAllPids]
  have hnd : ((getAllPids s).filter fun pid =>
      s.state pid == .ready || s.state pid == .running).Nodup :=
    List.Nodup.filter _ List.nodup_range
  rw [getNumRunnable, List.countP_eq_length_filter]
  constructor
  · intro hlen b hb hne
    obtain ⟨x, hx⟩ := List.length_eq_one_iff.mp hlen
    have hax := (hmem a).mpr ⟨ha, Or.inl hr⟩
    rw [hx, List.mem_singleton] at hax
    refine not_or.mp fun hbr => hne ?_
    have hbx := (hmem b).mpr ⟨hb, hbr⟩
    rw [hx, List.mem_singleton] at hbx
    rw [hbx, hax]
  · intro hall
    have honly : ∀ b ∈ (getAllPids s).filter (fun pid =>
        s.state pid == .ready || s.state pid == .running), b = a := by
      intro b hb
      by_contra hne
      obtain ⟨hlt, hbr⟩ := (hmem b).mp hb
      exact not_or.mpr (hall b hlt hne) hbr
    have hin := (hmem a).mpr ⟨ha, Or.inl hr⟩
    generalize (getAllPids s).filter (fun pid =>
      s.state pid == .ready || s.state pid == .running) = l at *
    cases l with
    | nil => cases hin
    | cons x t =>
        cases t with
        | nil => rfl
        | cons y t =>
            have hx := honly x (by simp)
            have hy := honly y (by simp)
            simp [hx, hy] at hnd

theorem resumedNow_other {pid q : Nat} {s : Sched} (hq : q ≠ pid) :
    (resumed .runImmediate pid s).state q =
      if q = s.currProc ∧ s.state q = .running then .ready
      else s.state q := by
  rcases Classical.em (q = s.currProc ∧ s.state q = .running) with hc | hc
  · obtain ⟨rfl, hrun⟩ := hc
    simp [ProcessRun.resumed, hq, hrun]
  · rw [if_neg hc]
    rcases resumed_other (b := .runImmediate) (s := s) hq with
      he | ⟨-, hqc, hrun, -⟩
    · exact he
    · exact absurd ⟨hqc, hrun⟩ hc

/-- The end of an IO when the process takes over at once. -/
theorem Good.resumedNow {p : Policy} {pid : Nat} {s : Sched} (h : Good p s)
    (hp : pid < s.numProcs) (hw : s.state pid = .wait)
    (hio : p.ioDone = .runImmediate) :
    Good p (resumed .runImmediate pid s) := by
  have hself : (ProcessRun.resumed .runImmediate pid s).state pid =
      .running := by simp [ProcessRun.resumed]
  have hquiet : ¬ quiet p (ProcessRun.resumed .runImmediate pid s) := by
    rw [quiet, hio]
    cases p.switch
    · exact fun hn => hn hself
    · exact fun hn => by
        replace hn : (ProcessRun.resumed .runImmediate pid s).state pid =
          .done := hn
        rw [hself] at hn
        cases hn
  refine ⟨h.few, ?_, ?_, fun hq => absurd hq hquiet, ?_, ?_⟩
  · intro q hq hr
    by_contra hne
    replace hne : q ≠ pid := hne
    rw [resumedNow_other hne] at hr
    split at hr
    · cases hr
    · next hc => exact hc ⟨h.single q hq hr, hr⟩
  · show (ProcessRun.resumed .runImmediate pid s).state pid ≠ .ready
    rw [hself]
    simp
  · intro hsw q hq hwq
    obtain ⟨hne, hwait⟩ := (resumed_wait hw q).mp hwq
    have hcurr := h.alone hsw q hq hwait
    rw [← h.alone hsw pid hp hw] at hcurr
    exact absurd hcurr hne
  · intro q hq hd
    have hne : q ≠ pid := by
      rintro rfl
      rw [hself] at hd
      cases hd
    rw [resumedNow_other hne] at hd
    split at hd
    · cases hd
    · exact h.doneEmpty q hq hd

/-- The end of an IO when nobody else can run. -/
theorem Good.resumedAlone {p : Policy} {pid : Nat} {s : Sched} (h : Good p s)
    (hp : pid < s.numProcs) (hw : s.state pid = .wait)
    (hall : ∀ b < s.numProcs, b ≠ pid →
      s.state b ≠ .ready ∧ s.state b ≠ .running) :
    Good p { s with
      state := Function.update (Function.update s.state pid .ready) pid
        .running
      currProc := pid } := by
  refine ⟨h.few, ?_, by simp, fun _ q hq hr => ?_, ?_, ?_⟩
  · intro q hq hr
    by_contra hne
    replace hne : q ≠ pid := hne
    exact (hall q hq hne).2 (by simpa [hne] using hr)
  · by_cases hne : q = pid
    · simp [hne] at hr
    · exact (hall q hq hne).1 (by simpa [hne] using hr)
  · intro hsw q hq hwq
    by_contra hne
    replace hne : q ≠ pid := hne
    refine hne ((h.alone hsw q hq ?_).trans (h.alone hsw pid hp hw).symm)
    simpa [hne] using hwq
  · intro q hq hd
    by_cases hne : q = pid
    · simp [hne] at hd
    · exact h.doneEmpty q hq (by simpa [hne] using hd)

/-- The end of an IO while the current process goes on running. -/
theorem Good.resumedLater {p : Policy} {pid : Nat} {s : Sched} (h : Good p s)
    (hp : pid < s.numProcs) (hw : s.state pid = .wait)
    (hrun : s.state s.currProc = .running) :
    Good p { s with state := Function.update s.state pid .ready } := by
  have hne : s.currProc ≠ pid := by
    intro he
    rw [he, hw] at hrun
    cases hrun
  have hsw : p.switch = .onIo := by
    cases hsw : p.switch with
    | onIo => rfl
    | onEnd => exact absurd (h.alone hsw pid hp hw).symm hne
  refine ⟨h.few, ?_, by simp [hne, hrun], ?_, ?_, ?_⟩
  · intro q hq hr
    by_cases hqp : q = pid
    · simp [hqp] at hr
    · exact h.single q hq (by simpa [hqp] using hr)
  · intro hq
    rw [quiet, hsw] at hq
    simp [hne, hrun] at hq
  · intro hend
    rw [hsw] at hend
    cases hend
  · intro q hq hd
    by_cases hqp : q = pid
    · simp [hqp] at hd
    · exact h.doneEmpty q hq (by simpa [hqp] using hd)

/-- Somebody is ready or running only if the current process is running. -/
theorem Good.nobody {p : Policy} {s : Sched} (h : Good p s)
    (hio : p.ioDone = .runLater) (hnr : s.state s.currProc ≠ .running) {b : Nat}
    (hb : b < s.numProcs) : s.state b ≠ .ready ∧ s.state b ≠ .running := by
  constructor
  · refine h.idle ?_ b hb
    rw [quiet, hio]
    cases p.switch
    · exact hnr
    · exact Or.inl hnr
  · intro hbr
    exact hnr (h.single b hb hbr ▸ hbr)

/-- The end of an IO with at most two processes in the table. -/
theorem Good.resumed {p : Policy} {pid : Nat} {s : Sched} (h : Good p s)
    (hp : pid < s.numProcs) (hw : s.state pid = .wait) :
    Good p (resumed p.ioDone pid s) := by
  cases hio : p.ioDone with
  | runImmediate => exact h.resumedNow hp hw hio
  | runLater =>
      have hcount : getNumRunnable
          { s with state := Function.update s.state pid .ready } = 1 ↔
          ∀ b < s.numProcs, b ≠ pid →
            s.state b ≠ .ready ∧ s.state b ≠ .running := by
        rw [getNumRunnable_eq_one
          (s := { s with state := Function.update s.state pid .ready }) hp
          (Function.update_self ..)]
        refine forall_congr' fun b => forall_congr' fun _ =>
          forall_congr' fun hb => ?_
        simp [hb]
      simp only [ProcessRun.resumed]
      split
      · next hone => exact h.resumedAlone hp hw (hcount.mp hone)
      · next hmany =>
          refine h.resumedLater hp hw ?_
          by_contra hnr
          exact hmany (hcount.mpr fun b hb _ => h.nobody hio hnr hb)

theorem Good.popped {p : Policy} {s : Sched} {i : Instr} {rest : List Instr}
    (h : Good p s) (hr : s.state s.currProc = .running)
    (hc : s.code s.currProc = i :: rest) : Good p (popped rest s) := by
  refine ⟨h.few, h.single, h.notReady, ?_, h.alone, ?_⟩
  · intro hq
    refine h.idle ?_
    rw [quiet] at hq ⊢
    cases hsw : p.switch with
    | onIo => simp only [hsw] at hq ⊢; exact hq
    | onEnd =>
        cases hio : p.ioDone with
        | runImmediate => simp only [hsw, hio] at hq ⊢; exact hq
        | runLater =>
            simp only [hsw, hio] at hq ⊢
            refine hq.imp id fun hmem => ?_
            rw [hc]
            exact List.mem_cons_of_mem _
              (by simpa [ProcessRun.popped] using hmem)
  · intro q hq hd
    replace hd : s.state q = .done := hd
    have hne : q ≠ s.currProc := by
      rintro rfl
      rw [hr] at hd
      cases hd
    simpa [ProcessRun.popped, hne] using h.doneEmpty q hq hd

/-- Issuing an IO; `hnone` is what `quiet` says of a process that has one
before it. -/
theorem Good.issued {p : Policy} {s : Sched} (h : Good p s)
    (hc : s.currProc < s.numProcs)
    (hnone : p.switch = .onEnd → p.ioDone = .runLater →
      ∀ q < s.numProcs, s.state q ≠ .ready) : Good p (issued p s) := by
  have hself : (waiting p s).state s.currProc = .wait := by simp [waiting]
  have hst : ∀ q, q ≠ s.currProc → (waiting p s).state q = s.state q :=
    fun q hq => by simp [waiting, hq]
  have hrun : ∀ q < s.numProcs, (waiting p s).state q ≠ .running := by
    intro q hq hqr
    by_cases hqc : q = s.currProc
    · rw [hqc, hself] at hqr; cases hqr
    · rw [hst q hqc] at hqr
      exact hqc (h.single q hq hqr)
  have hready : (waiting p s).state s.currProc ≠ .ready := by
    rw [hself]; simp
  have hdone : ∀ q < s.numProcs, (waiting p s).state q = .done →
      s.code q = [] := by
    intro q hq hd
    by_cases hqc : q = s.currProc
    · rw [hqc, hself] at hd; cases hd
    · rw [hst q hqc] at hd
      exact h.doneEmpty q hq hd
  rw [ProcessRun.issued]
  split
  · next hsw =>
      refine good_promote (s := waiting p s) hc h.few hrun hready ?_ hdone
      intro hend
      rw [hsw] at hend
      cases hend
  · next hsw =>
      have hend : p.switch = .onEnd := by
        cases hsw' : p.switch with
        | onIo => exact absurd hsw' hsw
        | onEnd => rfl
      refine ⟨h.few, fun q hq hqr => absurd hqr (hrun q hq), hready, ?_, ?_,
        hdone⟩
      · intro hq q hlt hqr
        by_cases hqc : q = s.currProc
        · rw [hqc, hself] at hqr; cases hqr
        · rw [hst q hqc] at hqr
          cases hio : p.ioDone with
          | runLater => exact hnone hend hio q hlt hqr
          | runImmediate =>
              rw [quiet, hend, hio] at hq
              replace hq : (waiting p s).state s.currProc = .done := hq
              rw [hself] at hq
              cases hq
      · intro _ q hq hw
        by_contra hqc
        replace hqc : q ≠ s.currProc := hqc
        rw [hst q hqc] at hw
        exact hqc (h.alone hend q hq hw)

theorem Good.executed {p : Policy} {s : Sched} (h : Good p s) (hs : Inv s) :
    Good p (executed p s) := by
  rcases executed_cases p s with ⟨-, he⟩ | ⟨-, -, he⟩ | ⟨rest, hr, hc, he⟩ |
      ⟨rest, hr, hc, he⟩
  · rw [he]
    exact h.countIo.finished (by simpa using hs.currLt)
  · rw [he]
    exact (Good.countIo (s := { s with cpuBusy := s.cpuBusy + 1 })
      ⟨h.few, h.single, h.notReady, h.idle, h.alone, h.doneEmpty⟩).finished
      (by simpa using hs.currLt)
  · rw [he]
    exact (h.popped hr hc).countIo.finished
      (by simpa [ProcessRun.popped] using hs.currLt)
  · have hcl : (ProcessRun.countIo (ProcessRun.popped rest s)).currProc <
        (ProcessRun.countIo (ProcessRun.popped rest s)).numProcs := by
      simpa [ProcessRun.popped] using hs.currLt
    rw [he]
    refine ((h.popped hr hc).countIo.issued hcl ?_).finished ?_
    · intro hsw hio q hq
      rw [countIo_state]
      refine h.idle ?_ q (by simpa [ProcessRun.popped] using hq)
      rw [quiet, hsw, hio]
      exact Or.inr (by rw [hc]; simp)
    · rw [ProcessRun.issued]
      split
      · exact promote_currProc_lt
          (s := waiting p (ProcessRun.countIo (ProcessRun.popped rest s))) hcl
      · exact hcl

theorem Good.tick {p : Policy} {s : Sched} (h : Good p s)
    (hL : 1 ≤ p.ioLength) (hs : Inv s) :
    ∃ s', tick p s = some s' ∧ Inv s' ∧ Good p s' := by
  refine tick_rule hL hs (P := Good p)
    ⟨h.few, h.single, h.notReady, h.idle, h.alone, h.doneEmpty⟩ ?_
    (fun t hi ht => ht.executed hi)
  intro t pid hc hp hw ht
  refine (ht.resumed hp hw).finished ?_
  rw [resumed_numProcs]
  exact resumed_currLt hc hp

/-- A table with an active process always has something to do: the current
process runs, or somebody waits for an IO. -/
theorem Good.progress {p : Policy} {s : Sched} (h : Good p s)
    (hc : s.currProc < s.numProcs) (hact : hasActiveProc s = true) :
    s.state s.currProc = .running ∨ ∃ q < s.numProcs, s.state q = .wait := by
  by_contra hno
  obtain ⟨hrun, hwait⟩ := not_or.mp hno
  have hdone : s.state s.currProc = .done := by
    cases hs : s.state s.currProc with
    | running => exact absurd hs hrun
    | ready => exact absurd hs h.notReady
    | done => rfl
    | wait => exact absurd ⟨_, hc, hs⟩ hwait
  rw [hasActiveProc, decide_eq_true_eq, List.countP_pos_iff] at hact
  obtain ⟨q, hq, hd⟩ := hact
  replace hq : q < s.numProcs := List.mem_range.mp hq
  cases hs : s.state q with
  | running => exact hrun (h.single q hq hs ▸ hs)
  | ready => exact h.idle (quiet_of_done hdone) q hq hs
  | done => simp [hs] at hd
  | wait => exact hwait ⟨q, hq, hs⟩

end LearningLinux.ProcessRun
