import LearningLinux.ProcessRun.Points

/-!
# What `cpu_busy` counts

`cpu_busy` is meant to count the instructions that have been executed. It is
incremented whenever the current process is running, also when
`pop_next_instruction` has none left to give, so it runs ahead by one for
every tick in which a process without instructions is current and running,
and never falls back. That cannot happen when every instruction list ends in
a `cpu`: such a process is marked done in the tick that takes its last
instruction.
-/

namespace LearningLinux.ProcessRun

/-- The instructions taken off the lists so far. -/
def removed (codes : List (List Instr)) (s : Sched) : Nat :=
  ∑ q ∈ Finset.range codes.length,
    ((codes.getD q []).length - (s.code q).length)

def totalCode (codes : List (List Instr)) : Nat :=
  (codes.map List.length).sum

/-- The instructions still on the lists. -/
def codeLeft (s : Sched) : Nat :=
  ∑ q ∈ Finset.range s.numProcs, (s.code q).length

/-- The current process runs and has no instruction left. -/
def RunsEmpty (s : Sched) : Prop :=
  s.state s.currProc = .running ∧ s.code s.currProc = []

/-- `cpu_busy` is the number of instructions removed, after every tick and,
all of them being gone, when `run` returns. -/
def CountsInstructions (p : Policy) (codes : List (List Instr)) : Prop :=
  (∀ k s, endOfTick p codes k = some s → s.cpuBusy = removed codes s) ∧
    ∀ fuel s, run p codes fuel = .returned s → s.cpuBusy = totalCode codes

/-- What the lists of the processes have come from, and that only a process
with an empty one is done. -/
structure Spends (codes : List (List Instr)) (s : Sched) : Prop where
  numProcs : s.numProcs = codes.length
  shorter : ∀ q, (s.code q).length ≤ (codes.getD q []).length
  doneEmpty : ∀ q < s.numProcs, s.state q = .done → s.code q = []

theorem sum_getD_length : ∀ codes : List (List Instr),
    ∑ q ∈ Finset.range codes.length, (codes.getD q []).length =
      totalCode codes := by
  intro codes
  induction codes with
  | nil => rfl
  | cons c codes ih =>
      rw [List.length_cons, Finset.sum_range_succ', totalCode, List.map_cons,
        List.sum_cons, Nat.add_comm]
      exact congrArg (c.length + ·) ih

theorem Spends.removed_add {codes : List (List Instr)} {s : Sched}
    (h : Spends codes s) : removed codes s + codeLeft s = totalCode codes := by
  rw [removed, codeLeft, h.numProcs, ← Finset.sum_add_distrib,
    ← sum_getD_length]
  refine Finset.sum_congr rfl fun q _ => ?_
  have := h.shorter q
  omega

/-! ## What an update does to the lists -/

theorem promote_done {s : Sched} (h : s.currProc < s.numProcs) {q : Nat}
    (hd : (promote (others s) s).state q = .done) : s.state q = .done := by
  rw [promote_state h] at hd
  split at hd
  · cases hd
  · exact hd

@[simp] theorem finished_cpuBusy (s : Sched) :
    (finished s).cpuBusy = s.cpuBusy := by unfold finished; split <;> rfl
@[simp] theorem countIo_cpuBusy (s : Sched) :
    (countIo s).cpuBusy = s.cpuBusy := by unfold countIo; split <;> rfl
@[simp] theorem resumed_cpuBusy {b : IoDoneBehavior} {pid : Nat} {s : Sched} :
    (resumed b pid s).cpuBusy = s.cpuBusy := by
  cases b <;> simp only [resumed]; split <;> rfl
@[simp] theorem issued_cpuBusy (p : Policy) (s : Sched) :
    (issued p s).cpuBusy = s.cpuBusy := by unfold issued; split <;> rfl
@[simp] theorem issued_code (p : Policy) (s : Sched) :
    (issued p s).code = s.code := by unfold issued; split <;> rfl
section Spends

variable {codes : List (List Instr)} {s : Sched}

/-- An update of the states alone, which lets nobody be done but the owner of
an empty list. -/
theorem Spends.congr (h : Spends codes s) {s' : Sched}
    (hn : s'.numProcs = s.numProcs) (hc : s'.code = s.code)
    (hd : ∀ q < s.numProcs, s'.state q = .done →
      s.state q = .done ∨ s.code q = []) : Spends codes s' := by
  refine ⟨hn.trans h.numProcs, fun q => by rw [hc]; exact h.shorter q, ?_⟩
  intro q hq hdone
  rw [hn] at hq
  rw [hc]
  rcases hd q hq hdone with hs | he
  · exact h.doneEmpty q hq hs
  · exact he

theorem Spends.finished (h : Spends codes s) (hlt : s.currProc < s.numProcs) :
    Spends codes (finished s) := by
  refine h.congr (finished_numProcs s) (finished_code s) fun q _ hd => ?_
  rw [ProcessRun.finished] at hd
  split at hd
  · next hc =>
      have hr := promote_done (retired_currLt hlt) hd
      by_cases hq : q = s.currProc
      · exact Or.inr (hq ▸ hc.1)
      · rw [retired] at hr
        simp only [Function.update_of_ne hq] at hr
        exact Or.inl hr
  · exact Or.inl hd

theorem Spends.resumed {b : IoDoneBehavior} {pid : Nat} (h : Spends codes s) :
    Spends codes (resumed b pid s) := by
  refine h.congr resumed_numProcs resumed_code fun q _ hd => Or.inl ?_
  by_cases hq : q = pid
  · subst hq
    rcases @resumed_self b q s with ⟨hr, -⟩ | ⟨hr, -, -⟩ <;>
      (rw [hr] at hd; cases hd)
  · rcases resumed_other (b := b) (s := s) hq with hr | ⟨-, -, -, hr⟩
    · exact hr ▸ hd
    · rw [hr] at hd
      cases hd

theorem Spends.countIo (h : Spends codes s) : Spends codes (countIo s) :=
  h.congr (countIo_numProcs s) (countIo_code s) fun q _ hd => Or.inl (by
    rw [countIo_state] at hd
    exact hd)

theorem Spends.issued {p : Policy} (h : Spends codes s)
    (hlt : s.currProc < s.numProcs) : Spends codes (issued p s) := by
  have hwait : ∀ q, (waiting p s).state q = .done → s.state q = .done := by
    intro q hd
    by_cases hq : q = s.currProc
    · simp [waiting, hq] at hd
    · simpa [waiting, hq] using hd
  refine h.congr (issued_numProcs p s) (issued_code p s) fun q _ hd => ?_
  rw [ProcessRun.issued] at hd
  split at hd
  · exact Or.inl (hwait q (promote_done (s := waiting p s) hlt hd))
  · exact Or.inl (hwait q hd)

theorem Spends.popped {i : Instr} {rest : List Instr} (h : Spends codes s)
    (hr : s.state s.currProc = .running)
    (hc : s.code s.currProc = i :: rest) : Spends codes (popped rest s) := by
  refine ⟨h.numProcs, fun q => ?_, fun q hq hd => ?_⟩
  · by_cases hq : q = s.currProc
    · have hle := h.shorter s.currProc
      rw [hc, List.length_cons] at hle
      subst hq
      simp only [ProcessRun.popped, Function.update_self]
      omega
    · simp only [ProcessRun.popped, Function.update_of_ne hq]
      exact h.shorter q
  · have hne : q ≠ s.currProc := by
      rintro rfl
      have hd' : s.state s.currProc = .done := hd
      rw [hr] at hd'
      cases hd'
    simp only [ProcessRun.popped, Function.update_of_ne hne]
    exact h.doneEmpty q hq hd

end Spends

/-! ## The account -/

/-- Instructions counted and instructions left. -/
def account (s : Sched) : Nat := s.cpuBusy + codeLeft s

theorem account_congr {s s' : Sched} (hn : s'.numProcs = s.numProcs)
    (hc : s'.code = s.code) (hb : s'.cpuBusy = s.cpuBusy) :
    account s' = account s := by
  rw [account, account, codeLeft, codeLeft, hn, hc, hb]

theorem account_popped {s : Sched} {i : Instr} {rest : List Instr}
    (hlt : s.currProc < s.numProcs) (hc : s.code s.currProc = i :: rest) :
    account (popped rest s) = account s := by
  have hmem : s.currProc ∈ Finset.range s.numProcs := Finset.mem_range.mpr hlt
  have hsame : ∑ q ∈ (Finset.range s.numProcs).erase s.currProc,
      ((popped rest s).code q).length =
      ∑ q ∈ (Finset.range s.numProcs).erase s.currProc,
        (s.code q).length := by
    refine Finset.sum_congr rfl fun q hq => ?_
    simp only [popped, Function.update_of_ne (Finset.ne_of_mem_erase hq)]
  have hcode : (popped rest s).code s.currProc = rest := by
    simp only [popped, Function.update_self]
  have hleft : codeLeft (popped rest s) + 1 = codeLeft s := by
    rw [codeLeft, codeLeft, ← Finset.add_sum_erase _ _ hmem]
    show ∑ q ∈ Finset.range s.numProcs, ((popped rest s).code q).length + 1 = _
    rw [← Finset.add_sum_erase _ _ hmem, hsame, hcode, hc, List.length_cons]
    omega
  have hbusy : (popped rest s).cpuBusy = s.cpuBusy + 1 := rfl
  rw [account, account, hbusy]
  omega

/-- The rest of a tick keeps the account, and overdraws it by one when the
current process runs without an instruction. -/
theorem executed_account {p : Policy} {codes : List (List Instr)} {s : Sched}
    (h : Spends codes s) (hlt : s.currProc < s.numProcs) :
    Spends codes (executed p s) ∧
      (¬ RunsEmpty s → account (executed p s) = account s) ∧
      (RunsEmpty s → account (executed p s) = account s + 1) := by
  have hcl : ∀ t : Sched, (countIo t).currProc < (countIo t).numProcs ↔
      t.currProc < t.numProcs := by
    intro t
    rw [countIo_currProc, countIo_numProcs]
  rcases executed_cases p s with ⟨hr, he⟩ | ⟨hr, hc, he⟩ |
    ⟨rest, hr, hc, he⟩ | ⟨rest, hr, hc, he⟩
  · rw [he]
    refine ⟨h.countIo.finished ((hcl s).mpr hlt), fun _ => ?_, fun hno => ?_⟩
    · exact account_congr (by simp) (by simp) (by simp)
    · exact absurd hno.1 hr
  · rw [he]
    have hb : Spends codes { s with cpuBusy := s.cpuBusy + 1 } :=
      h.congr rfl rfl fun q _ hd => Or.inl hd
    refine ⟨hb.countIo.finished ((hcl _).mpr hlt), fun hno => ?_, fun _ => ?_⟩
    · exact absurd ⟨hr, hc⟩ hno
    · rw [account_congr (s := { s with cpuBusy := s.cpuBusy + 1 }) (by simp)
        (by simp) (by simp)]
      show s.cpuBusy + 1 + codeLeft s = s.cpuBusy + codeLeft s + 1
      omega
  · rw [he]
    have hne : ¬ RunsEmpty s := fun hno => by
      rw [hno.2] at hc
      cases hc
    refine ⟨(h.popped hr hc).countIo.finished ((hcl _).mpr hlt), fun _ => ?_,
      fun hno => absurd hno hne⟩
    rw [account_congr (s := popped rest s) (by simp) (by simp) (by simp),
      account_popped hlt hc]
  · rw [he]
    have hne : ¬ RunsEmpty s := fun hno => by
      rw [hno.2] at hc
      cases hc
    have hlt' : (countIo (popped rest s)).currProc <
        (countIo (popped rest s)).numProcs := (hcl _).mpr hlt
    have hissued : (issued p (countIo (popped rest s))).currProc <
        (issued p (countIo (popped rest s))).numProcs := by
      rw [issued_numProcs, issued]
      split
      · exact promote_currProc_lt (s := waiting p _) hlt'
      · exact hlt'
    refine ⟨((h.popped hr hc).countIo.issued hlt').finished hissued,
      fun _ => ?_, fun hno => absurd hno hne⟩
    rw [account_congr (s := popped rest s) (by simp) (by simp) (by simp),
      account_popped hlt hc]

theorem tick_account {p : Policy} {codes : List (List Instr)} {s : Sched}
    (hi : Inv s) (h : Spends codes s) :
    ∃ s₁, handleIoDoneProc (s.clockTick + 1) p.ioDone
        { s with clockTick := s.clockTick + 1 } = some s₁ ∧
      tick p s = some (executed p s₁) ∧ Spends codes (executed p s₁) ∧
      (¬ RunsEmpty s₁ → account (executed p s₁) = account s) ∧
      (RunsEmpty s₁ → account (executed p s₁) = account s + 1) := by
  obtain ⟨s₁, hrun, hi₁, ⟨hs₁, ha₁⟩, ht⟩ := tick_split (p := p)
    (P := fun t => Spends codes t ∧ account t = account s) hi
    ⟨h.congr rfl rfl fun q _ hd => Or.inl hd, rfl⟩ (by
      intro t pid hlt hpid _ ⟨hst, hat⟩
      have hcl : (resumed p.ioDone pid t).currProc <
          (resumed p.ioDone pid t).numProcs := by
        rw [resumed_numProcs]
        exact resumed_currLt hlt hpid
      refine ⟨hst.resumed.finished hcl, ?_⟩
      rw [account_congr (s := t) (by simp) (by simp) (by simp), hat])
  obtain ⟨hs', hkeep, hover⟩ := executed_account (p := p) hs₁ hi₁.currLt
  rw [ha₁] at hkeep hover
  exact ⟨s₁, hrun, ht, hs', hkeep, hover⟩

theorem started_spends {codes : List (List Instr)} :
    Spends codes (started codes) ∧ account (started codes) =
      totalCode codes := by
  have hs : Spends codes (started codes) := by
    refine ⟨rfl, fun q => Nat.le_refl _, fun q _ hd => ?_⟩
    by_cases hq : q = 0
    · rw [hq, started_zero] at hd
      cases hd
    · rw [started_other hq] at hd
      cases hd
  refine ⟨hs, ?_⟩
  have hzero : removed codes (started codes) = 0 := by
    rw [removed]
    refine Finset.sum_eq_zero fun q _ => ?_
    exact Nat.sub_self _
  have hadd := hs.removed_add
  have hbusy : (started codes).cpuBusy = 0 := rfl
  rw [account, hbusy]
  omega

/-- The account along a run: never short, and exact as long as no process has
run without an instruction. -/
theorem iter_account {p : Policy} {codes : List (List Instr)}
    (hL : 1 ≤ p.ioLength) (hlen : codes.length ≠ 0) : ∀ (k : Nat) {s : Sched},
    Lib.iter (loopStep p) k (started codes) = some s →
    Inv s ∧ Spends codes s ∧ totalCode codes ≤ account s ∧
      ((∀ j t, midTick p codes j = some t → ¬ RunsEmpty t) →
        account s = totalCode codes) := by
  intro k
  induction k with
  | zero =>
      intro s h
      cases h
      obtain ⟨hs, ha⟩ := @started_spends codes
      exact ⟨started_inv hlen, hs, Nat.le_of_eq ha.symm, fun _ => ha⟩
  | succ k ih =>
      intro s h
      have hall := h
      rw [Lib.iter_succ, Option.bind_eq_some_iff] at h
      obtain ⟨t, hk, hstep⟩ := h
      obtain ⟨hi, hs, hle, hexact⟩ := ih hk
      rw [loopStep] at hstep
      split at hstep
      · next hact =>
          obtain ⟨s₁, hrun, ht, hs', hkeep, hover⟩ := tick_account (p := p) hi hs
          rw [ht] at hstep
          cases hstep
          refine ⟨iter_inv_table hL (started_inv hlen) hall, hs', ?_, ?_⟩
          · by_cases he : RunsEmpty s₁
            · rw [hover he]
              omega
            · rw [hkeep he]
              exact hle
          · intro hcond
            have hmid : midTick p codes (k + 1) = some s₁ := by
              rw [midTick, if_neg (by omega), start_eq]
              show (Lib.iter (loopStep p) (k + 1 - 1) (started codes)).bind _ = _
              rw [Nat.add_sub_cancel, hk, Option.bind_some, if_pos hact]
              exact hrun
            rw [hkeep (hcond (k + 1) s₁ hmid)]
            exact hexact hcond
      · cases hstep

theorem countsInstructions_of {p : Policy} {codes : List (List Instr)}
    (hL : 1 ≤ p.ioLength)
    (hcond : ∀ k s, midTick p codes k = some s → ¬ RunsEmpty s) :
    CountsInstructions p codes := by
  refine ⟨fun k s hk => ?_, fun fuel s hrun => ?_⟩
  · obtain ⟨hlen, hk⟩ := endOfTick_eq_some hk
    obtain ⟨-, hs, -, hexact⟩ := iter_account hL hlen k hk
    have hacc := hexact hcond
    have hadd := hs.removed_add
    rw [account] at hacc
    omega
  · rw [run] at hrun
    split at hrun
    · next hz =>
        cases hrun
        rw [List.length_eq_zero_iff.mp hz]
        rfl
    · next hlen =>
        rw [start_eq] at hrun
        obtain ⟨⟨k, hk⟩, hact⟩ := iter_of_loop hrun
        obtain ⟨-, hs, -, hexact⟩ := iter_account hL hlen k hk
        have hleft : codeLeft s = 0 := by
          refine Finset.sum_eq_zero fun q hq => ?_
          have hq' := Finset.mem_range.mp hq
          have hd := not_hasActiveProc (by rw [hact]; simp) hq'
          rw [hs.doneEmpty q hq' hd]
          rfl
        have hacc := hexact hcond
        rw [account] at hacc
        omega

/-! ## Lists that end in a `cpu` -/

/-- The list of every process that is not done ends in a `cpu`. -/
def LastCpu (s : Sched) : Prop :=
  ∀ q < s.numProcs, s.state q ≠ .done → (s.code q).getLast? = some .cpu

section LastCpu

variable {s : Sched} {q : Nat}

theorem promote_of_done (h : s.currProc < s.numProcs)
    (hd : s.state q = .done) : (promote (others s) s).state q = .done := by
  rw [promote_state h, if_neg (by simp [hd])]
  exact hd

theorem finished_of_done (h : s.currProc < s.numProcs)
    (hd : s.state q = .done) : (finished s).state q = .done := by
  rw [finished]
  split
  · refine promote_of_done (retired_currLt h) ?_
    by_cases hq : q = s.currProc
    · simp [retired, hq]
    · simpa [retired, hq] using hd
  · exact hd

theorem resumed_of_done {b : IoDoneBehavior} {pid : Nat}
    (hw : s.state pid = .wait) (hd : s.state q = .done) :
    (resumed b pid s).state q = .done := by
  have hq : q ≠ pid := by
    rintro rfl
    rw [hw] at hd
    cases hd
  rcases resumed_other (b := b) (s := s) hq with hr | ⟨-, -, hr, -⟩
  · rw [hr]
    exact hd
  · rw [hd] at hr
    cases hr

theorem issued_of_done {p : Policy} (h : s.currProc < s.numProcs)
    (hr : s.state s.currProc = .running) (hd : s.state q = .done) :
    (issued p s).state q = .done := by
  have hq : q ≠ s.currProc := by
    rintro rfl
    rw [hr] at hd
    cases hd
  have hw : (waiting p s).state q = .done := by simpa [waiting, hq] using hd
  rw [issued]
  split
  · exact promote_of_done (s := waiting p s) h hw
  · exact hw

theorem LastCpu.congr (h : LastCpu s) {s' : Sched}
    (hn : s'.numProcs = s.numProcs) (hc : s'.code = s.code)
    (hd : ∀ q, s.state q = .done → s'.state q = .done) : LastCpu s' := by
  intro q hq hne
  rw [hn] at hq
  rw [hc]
  exact h q hq fun hdone => hne (hd q hdone)

/-- Taking an instruction leaves the list with the same last one, or empty
behind a `cpu`. -/
theorem LastCpu.popped {i : Instr} {rest : List Instr} (h : LastCpu s)
    (hlt : s.currProc < s.numProcs) (hr : s.state s.currProc = .running)
    (hc : s.code s.currProc = i :: rest) :
    LastCpu (popped rest s) ∨ i = .cpu ∧ rest = [] := by
  have hlast := h s.currProc hlt (by simp [hr])
  rw [hc] at hlast
  cases rest with
  | nil => exact Or.inr ⟨Option.some.inj hlast, rfl⟩
  | cons j rest =>
      refine Or.inl fun q hq hne => ?_
      by_cases hq' : q = s.currProc
      · subst hq'
        simpa [ProcessRun.popped] using hlast
      · simp only [ProcessRun.popped, Function.update_of_ne hq']
        exact h q hq hne

/-- With its last instruction taken, the current process is done at the end of
the tick. -/
theorem LastCpu.finished_popped (h : LastCpu s)
    (hlt : s.currProc < s.numProcs) (hr : s.state s.currProc = .running) :
    LastCpu (finished (countIo (ProcessRun.popped [] s))) := by
  have hcl : (countIo (ProcessRun.popped [] s)).currProc <
      (countIo (ProcessRun.popped [] s)).numProcs := by
    rw [countIo_currProc, countIo_numProcs]
    exact hlt
  have hcond : (countIo (ProcessRun.popped [] s)).code
        (countIo (ProcessRun.popped [] s)).currProc = [] ∧
      (countIo (ProcessRun.popped [] s)).state
        (countIo (ProcessRun.popped [] s)).currProc = .running := by
    rw [countIo_code, countIo_state, countIo_currProc]
    exact ⟨by simp [ProcessRun.popped], hr⟩
  intro q hq hne
  by_cases hq' : q = s.currProc
  · refine absurd ?_ hne
    rw [finished, if_pos hcond]
    refine promote_of_done (retired_currLt hcl) ?_
    subst hq'
    simp [retired, ProcessRun.popped]
  · rw [finished_code, countIo_code]
    simp only [ProcessRun.popped, Function.update_of_ne hq']
    refine h q (by simpa [ProcessRun.popped] using hq) fun hd => hne ?_
    exact finished_of_done hcl (by rw [countIo_state]; exact hd)

theorem LastCpu.executed {p : Policy} (h : LastCpu s)
    (hlt : s.currProc < s.numProcs) : LastCpu (executed p s) := by
  have hfin : ∀ t : Sched, LastCpu t → t.currProc < t.numProcs →
      LastCpu (finished (countIo t)) := by
    intro t ht hcl
    refine ht.congr (by simp) (by simp) fun q hd => finished_of_done ?_ ?_
    · rw [countIo_currProc, countIo_numProcs]
      exact hcl
    · rw [countIo_state]
      exact hd
  rcases executed_cases p s with ⟨-, he⟩ | ⟨hr, hc, -⟩ |
    ⟨rest, hr, hc, he⟩ | ⟨rest, hr, hc, he⟩
  · rw [he]
    exact hfin s h hlt
  · have hlast := h s.currProc hlt (by simp [hr])
    rw [hc] at hlast
    cases hlast
  · rw [he]
    rcases h.popped hlt hr hc with hp | ⟨-, rfl⟩
    · exact hfin _ hp hlt
    · exact h.finished_popped hlt hr
  · rw [he]
    rcases h.popped hlt hr hc with hp | ⟨hi, -⟩
    · have hcl : (countIo (ProcessRun.popped rest s)).currProc <
          (countIo (ProcessRun.popped rest s)).numProcs := by
        rw [countIo_currProc, countIo_numProcs]
        exact hlt
      refine hp.congr (by simp) (by simp) fun q hd => finished_of_done ?_ ?_
      · rw [issued_numProcs, issued]
        split
        · exact promote_currProc_lt (s := waiting p _) hcl
        · exact hcl
      · refine issued_of_done hcl ?_ (by rw [countIo_state]; exact hd)
        rw [countIo_state, countIo_currProc]
        exact hr
    · cases hi

end LastCpu

/-- With every instruction list ending in a `cpu`, a running process always
has an instruction to give. -/
theorem not_runsEmpty_of_last {p : Policy} {codes : List (List Instr)}
    (hL : 1 ≤ p.ioLength) (hlast : ∀ c ∈ codes, c.getLast? = some .cpu)
    (k : Nat) (s : Sched) (h : midTick p codes k = some s) :
    ¬ RunsEmpty s := by
  have hstart : LastCpu (started codes) := by
    intro q hq _
    have hq' : q < codes.length := hq
    show (codes.getD q []).getLast? = _
    rw [List.getD_eq_getElem?_getD, List.getElem?_eq_getElem hq']
    exact hlast _ (List.getElem_mem hq')
  obtain ⟨hi, hl⟩ := midTick_rule (P := LastCpu) hL hstart
    (fun t ht => ht.congr rfl rfl fun _ hd => hd)
    (fun t pid hlt hpid hw ht => ht.congr (by simp) (by simp) fun q hd =>
      finished_of_done (by rw [resumed_numProcs]; exact resumed_currLt hlt hpid)
        (resumed_of_done hw hd))
    (fun t ht htl => htl.executed ht.currLt) h
  intro ⟨hr, hc⟩
  have hcpu := hl s.currProc hi.currLt (by simp [hr])
  rw [hc] at hcpu
  cases hcpu

/-- A condition on the arguments alone: `cpu_busy` counts the instructions
when no process has an IO, or nothing, as its last one. -/
theorem countsInstructions_of_last {p : Policy} {codes : List (List Instr)}
    (hL : 1 ≤ p.ioLength) (hlast : ∀ c ∈ codes, c.getLast? = some .cpu) :
    CountsInstructions p codes :=
  countsInstructions_of hL (not_runsEmpty_of_last hL hlast)

/-! ## When the count is right -/

/-- `cpu_busy` counts the instructions exactly along the runs in which no
process that has run out of instructions is ever current and running when the
tick fetches one. -/
theorem countsInstructions_iff (p : Policy) (codes : List (List Instr))
    (hL : 1 ≤ p.ioLength) :
    CountsInstructions p codes ↔
      ∀ k s, midTick p codes k = some s → ¬ RunsEmpty s := by
  refine ⟨fun hcount k s₁ hmid hempty => ?_, countsInstructions_of hL⟩
  obtain ⟨hlen, hk, s, hs, hact, hrun⟩ := midTick_eq_some hmid
  obtain ⟨hi, hsp, hle, -⟩ := iter_account hL hlen (k - 1) hs
  obtain ⟨t, hrun', ht, hs', -, hover⟩ := tick_account (p := p) hi hsp
  rw [hrun] at hrun'
  cases hrun'
  have hend : endOfTick p codes k = some (executed p s₁) := by
    obtain ⟨j, rfl⟩ : ∃ j, k = j + 1 := ⟨k - 1, by omega⟩
    rw [endOfTick, if_neg (by omega), start_eq, Option.bind_some,
      Lib.iter_succ]
    rw [Nat.add_sub_cancel] at hs
    rw [hs, Option.bind_some, loopStep, if_pos hact, ht]
  have hbusy := hcount.1 k _ hend
  have hadd := hs'.removed_add
  have hacc := hover hempty
  rw [account] at hacc
  omega

/-- Three processes, two of them with an IO on the way. -/
theorem countsInstructions_three_procs :
    1 ≤ 2 ∧ CountsInstructions ⟨.onIo, .runLater, 2⟩
      [[.io, .cpu], [.cpu, .io, .cpu], [.cpu]] :=
  ⟨by decide, (countsInstructions_iff ⟨.onIo, .runLater, 2⟩
    [[.io, .cpu], [.cpu, .io, .cpu], [.cpu]] (by decide)).mpr
    (not_runsEmpty_of_last (by decide) (by decide))⟩

/-- `-l 1:0,3:100 -L 1`: process 0 issues its only instruction, an IO, and is
ready again long before process 1 is done. Then `_next_proc` makes it run
with nothing left, and the fifth tick counts a fifth instruction of four. -/
theorem not_countsInstructions_io_last :
    ¬ ∀ (p : Policy) (codes : List (List Instr)), 1 ≤ p.ioLength →
      CountsInstructions p codes := by
  intro h
  have hrun := (h ⟨.onIo, .runLater, 1⟩ [[.io], [.cpu, .cpu, .cpu]]
    (by decide)).1 5
  have hval : (endOfTick ⟨.onIo, .runLater, 1⟩ [[.io], [.cpu, .cpu, .cpu]]
      5).map (fun s => (s.cpuBusy, removed [[.io], [.cpu, .cpu, .cpu]] s)) =
      some (5, 4) := by decide +kernel
  obtain ⟨s, hs, hpair⟩ := Option.map_eq_some_iff.mp hval
  have heq := hrun s hs
  obtain ⟨h5, h4⟩ := Prod.mk.inj hpair
  omega

end LearningLinux.ProcessRun
