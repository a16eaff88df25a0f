import LearningLinux.ThreadPool.Tasks

/-!
# What becomes of a task

Every task that has been added is in the queue, or being run, or has been
run, or has been freed by `destroy_tpool` without being run, and only one of
these. Tasks are taken in the order they were added, none is run twice, and
none is freed before the last worker has exited.
-/

namespace LearningLinux.ThreadPool

open LearningLinux.Lib

variable {n : Nat} {κ τ : Type*} {s s' : State n κ τ} {w : Fin n} {k : κ}
  {m : Monitor (Thread n κ) Unit} {q : List Addr} {a : Addr}

/-- The calls of `add_task_2_tpool` all return before `destroy_tpool` is
called, and none is made after that. -/
def AddsReturned (s : State n κ τ) : Act n κ τ → Prop
  | .call _ _ _ => s.destroyer = .idle
  | .destroyer => s.destroyer = .idle → ∀ k, s.adder k = .idle
  | .worker _ | .adder _ _ | .spurious _ => True

instance [Fintype κ] (s : State n κ τ) :
    ∀ a, Decidable (AddsReturned s a)
  | .call _ _ _ => inferInstanceAs (Decidable (s.destroyer = .idle))
  | .destroyer => inferInstanceAs
      (Decidable (s.destroyer = .idle → ∀ k, s.adder k = .idle))
  | .worker _ | .adder _ _ | .spurious _ => inferInstanceAs (Decidable True)

/-- Once `destroy_tpool` has been called no task is being added. -/
def Quiet (s : State n κ τ) : Prop :=
  s.destroyer ≠ .idle → ∀ k, s.adder k = .idle

def Tasks (s : State n κ τ) : Prop := ∃ q, Memory s q ∧ Ledger s q

structure Inv (s : State n κ τ) : Prop where
  sync : Sync s
  quiet : Quiet s
  tasks : Tasks s

theorem inv_init : Inv (init : State n κ τ) where
  sync := sync_init
  quiet := fun h => absurd rfl h
  tasks := ⟨[], memory_init, ledger_init⟩

/-! ## Steps between the statements that matter -/

theorem Tasks.congr (h : Tasks s) (hheap : s'.heap = s.heap)
    (hhead : s'.work_queue_head = s.work_queue_head)
    (hworker : s'.worker = s.worker) (hadder : s'.adder = s.adder)
    (hadded : s'.added = s.added) (hdequeued : s'.dequeued = s.dequeued)
    (hran : s'.ran = s.ran) (hfreed : s'.freed = s.freed) : Tasks s' := by
  obtain ⟨q, hmem, hled⟩ := h
  refine ⟨q, hmem.moved hheap hhead (fun t => ?_) fun k => ?_,
    hled.moved hheap hadded hdequeued hran hfreed (fun w => ?_) fun w hw => ?_⟩
  · cases t with
    | worker w => rw [State.owns, State.owns, hworker]
    | adder k => rw [State.owns, State.owns, hadder]
    | destroyer => rfl
  · rw [hadder]
    exact hmem.place k
  · rw [hworker]
  · rw [hworker]
    exact hw

theorem Tasks.workerTo {p : WorkerPc} (h : Tasks s)
    (hne : s.worker w ≠ .exited) (hwork : p.work = (s.worker w).work)
    (hrunning : p.running = (s.worker w).running) :
    Tasks ((s.workerTo w p).withMon m) := by
  obtain ⟨q, hmem, hled⟩ := h
  refine ⟨q, hmem.moved rfl rfl (fun t => ?_) hmem.place,
    hled.moved rfl rfl rfl rfl rfl (fun v => ?_) fun v hv =>
      exited_workerTo hne hv⟩
  · by_cases ht : t = .worker w
    · rw [ht]
      exact owns_workerTo_self.trans hwork
    · exact owns_workerTo ht
  · change (Function.update s.worker w p v).running = _
    by_cases hvw : v = w
    · rw [hvw, Function.update_self, hrunning]
    · rw [Function.update_of_ne hvw]

/-- The worker is at a statement without a node, before and after it. -/
theorem Tasks.workerIdle {p : WorkerPc} (h : Tasks s)
    (hne : s.worker w ≠ .exited) (hbefore : (s.worker w).work = none)
    (hafter : p.work = none) : Tasks ((s.workerTo w p).withMon m) := by
  have hrunning : ∀ p : WorkerPc, p.work = none → p.running = none := by
    intro p hp
    cases p <;> first | rfl | cases hp
  refine h.workerTo hne (hafter.trans hbefore.symm) ?_
  rw [hrunning p hafter, hrunning _ hbefore]

theorem Tasks.takeHead {work : Addr} {node : WorkQueue τ} (h : Tasks s)
    (hsync : Sync s) (hpc : s.worker w = .dequeue)
    (hhead : s.work_queue_head = some work)
    (hnode : s.heap work = some node) :
    Tasks { s.workerTo w (.unlock work) with
      work_queue_head := node.next
      dequeued := s.dequeued ++ [⟨node.routine, node.ticket⟩] } := by
  obtain ⟨q, hmem, hled⟩ := h
  have hchain := hmem.chain
  rw [hhead] at hchain
  obtain ⟨q', rfl, -⟩ := hchain.tail
  exact ⟨q', hmem.takeHead hsync hpc hnode, hled.takeHead hpc hnode⟩

theorem Tasks.freeHead {node : WorkQueue τ} (h : Tasks s)
    (hhead : s.work_queue_head = some a) (hnode : s.heap a = some node)
    (hexited : ∀ w, s.worker w = .exited) (hidle : ∀ k, s.adder k = .idle) :
    Tasks { s.release a with
      work_queue_head := node.next
      freed := s.freed ++ [⟨node.routine, node.ticket⟩] } := by
  obtain ⟨q, hmem, hled⟩ := h
  have hchain := hmem.chain
  rw [hhead] at hchain
  obtain ⟨q', rfl, -⟩ := hchain.tail
  refine ⟨q', hmem.freeHead hnode (fun t => ?_) hidle,
    hled.freeHead hmem hnode hexited⟩
  cases t with
  | worker w => rw [State.owns, hexited w]; rfl
  | adder k => rw [State.owns, hidle k]; rfl
  | destroyer => rfl

/-- An adder on its walk is at a node of the queue. -/
theorem Memory.walking {q : List Addr} {b : Addr} (h : Memory s q)
    (hpc : s.adder k = .walk a b) : b ∈ q := by
  have hplace := h.place k
  rwa [hpc] at hplace

variable [DecidableEq κ]

theorem Tasks.adderTo {p : AdderPc} (h : Tasks s)
    (hnew : p.new_work = (s.adder k).new_work)
    (hplace : ∀ q, Memory s q → Place s q p) :
    Tasks ((s.adderTo k p).withMon m) := by
  obtain ⟨q, hmem, hled⟩ := h
  refine ⟨q, hmem.moved rfl rfl (fun t => ?_) fun j => ?_,
    hled.moved rfl rfl rfl rfl rfl (fun _ => rfl) fun _ hv => hv⟩
  · by_cases ht : t = .adder k
    · rw [ht]
      exact owns_adderTo_self.trans hnew
    · exact owns_adderTo (s := s) ht
  · change Place s q (Function.update s.adder k p j)
    by_cases hjk : j = k
    · rw [hjk, Function.update_self]
      exact hplace q hmem
    · rw [Function.update_of_ne hjk]
      exact hmem.place j

/-! ## The three functions -/

theorem Tasks.threadStart (h : Tasks s) (hsync : Sync s)
    (hs : s.threadStart w = some s') : Tasks s' := by
  cases threadStart_cases hs with
  | lock hpc hfree =>
      exact h.workerIdle (by rw [hpc]; nofun) (by rw [hpc]; rfl) rfl
  | testHead hpc =>
      refine h.workerIdle (m := s.mon) (by rw [hpc]; nofun)
        (by rw [hpc]; rfl) ?_
      split <;> rfl
  | testShutdown hpc =>
      refine h.workerIdle (m := s.mon) (by rw [hpc]; nofun)
        (by rw [hpc]; rfl) ?_
      split <;> rfl
  | wait hpc howns =>
      exact h.workerIdle (by rw [hpc]; nofun) (by rw [hpc]; rfl) rfl
  | blocked hpc hawake hfree =>
      exact h.workerIdle (by rw [hpc]; nofun) (by rw [hpc]; rfl) rfl
  | ifShutdown hpc =>
      refine h.workerIdle (m := s.mon) (by rw [hpc]; nofun)
        (by rw [hpc]; rfl) ?_
      split <;> rfl
  | exitUnlock hpc howns =>
      exact h.workerIdle (by rw [hpc]; nofun) (by rw [hpc]; rfl) rfl
  | dequeue hpc hhead hnode => exact h.takeHead hsync hpc hhead hnode
  | unlock hpc howns =>
      exact h.workerTo (by rw [hpc]; nofun) (by rw [hpc]; rfl)
        (by rw [hpc]; rfl)
  | run hpc hnode =>
      obtain ⟨q, hmem, hled⟩ := h
      exact ⟨q, hmem.runTask hpc, hled.runTask hpc hnode⟩
  | free hpc =>
      obtain ⟨q, hmem, hled⟩ := h
      exact ⟨q, hmem.freeWork hpc, hled.freeWork hmem hpc⟩

theorem Tasks.call {routine : τ} (h : Tasks s)
    (hs : s.call k routine a = some s') : Tasks s' := by
  obtain ⟨⟨-, hfree⟩, ⟨⟩⟩ := Option.ite_none_right_eq_some.mp hs
  obtain ⟨q, hmem, hled⟩ := h
  exact ⟨q, hmem.call hfree, hled.call hmem hfree⟩

theorem Tasks.addTask2Tpool {woken : Finset (Thread n κ)} (h : Tasks s)
    (hsync : Sync s) (hs : s.addTask2Tpool k woken = some s') :
    Tasks s' := by
  cases addTask2Tpool_cases hs with
  | lock hpc hfree => exact h.adderTo (by rw [hpc]; rfl) fun _ _ => trivial
  | empty hpc hhead =>
      exact h.adderTo (m := s.mon) (by rw [hpc]; rfl) fun _ _ => hhead
  | first hpc hhead =>
      refine h.adderTo (m := s.mon) (by rw [hpc]; rfl) fun q hmem => ?_
      have hchain := hmem.chain
      rw [hhead] at hchain
      obtain ⟨q', rfl, -⟩ := hchain.tail
      exact List.mem_cons_self
  | setHead hpc hnode =>
      obtain ⟨q, hmem, hled⟩ := h
      obtain ⟨rfl, happ⟩ := appends_setHead hmem hpc hnode
      exact ⟨_, hmem.appends hsync (by rw [hpc]; rfl) (by rw [hpc]; rfl) happ,
        hled.appends hmem (by rw [hpc]; rfl) happ⟩
  | @last new_work last_work last hpc hlast hnone =>
      have hnext : s.nextAt last_work = none := by
        rw [State.nextAt, hlast]
        exact hnone
      exact h.adderTo (m := s.mon) (by rw [hpc]; rfl) fun q hmem =>
        ⟨hmem.walking hpc, hnext⟩
  | @walk new_work last_work next_work last hpc hlast hsome =>
      have hnext : s.nextAt last_work = some next_work := by
        rw [State.nextAt, hlast]
        exact hsome
      exact h.adderTo (m := s.mon) (by rw [hpc]; rfl) fun q hmem =>
        hmem.chain.mem_next (hmem.walking hpc) hnext
  | link hpc hnode hlast =>
      obtain ⟨q, hmem, hled⟩ := h
      have happ := appends_link hmem hpc hnode hlast
      exact ⟨_, hmem.appends hsync (by rw [hpc]; rfl) (by rw [hpc]; rfl) happ,
        hled.appends hmem (by rw [hpc]; rfl) happ⟩
  | signal hpc hsub hsome =>
      exact h.adderTo (by rw [hpc]; rfl) fun _ _ => trivial
  | unlock hpc howns => exact h.adderTo (by rw [hpc]; rfl) fun _ _ => trivial

theorem Tasks.destroyTpool (h : Tasks s) (hsync : Sync s)
    (hquiet : s.destroyer = .drain → ∀ k, s.adder k = .idle)
    (hs : s.destroyTpool = some s') : Tasks s' := by
  cases destroyTpool_cases hs with
  | drain hpc hhead hnode =>
      exact h.freeHead hhead hnode (hsync.joined (by rw [hpc]; rfl))
        (hquiet hpc)
  | _ => exact h.congr rfl rfl rfl rfl rfl rfl rfl rfl

/-! ## The destroyer comes last -/

theorem threadStart_frame (hs : s.threadStart w = some s') :
    s'.adder = s.adder ∧ s'.destroyer = s.destroyer := by
  cases threadStart_cases hs <;> exact ⟨rfl, rfl⟩

theorem addTask2Tpool_frame {woken : Finset (Thread n κ)}
    (hs : s.addTask2Tpool k woken = some s') :
    s.adder k ≠ .idle ∧ s'.destroyer = s.destroyer := by
  constructor
  · intro hidle
    simp only [State.addTask2Tpool, hidle] at hs
    cases hs
  · cases addTask2Tpool_cases hs <;> rfl

theorem destroyTpool_frame (hs : s.destroyTpool = some s') :
    s'.adder = s.adder := by
  cases destroyTpool_cases hs <;> rfl

theorem Quiet.step {a : Act n κ τ} (h : Quiet s) (hadds : AddsReturned s a)
    (hs : ThreadPool.step s a = some s') : Quiet s' := by
  rw [step.eq_def, Option.ite_none_left_eq_some] at hs
  obtain ⟨-, hs⟩ := hs
  cases a with
  | worker w =>
      obtain ⟨hadder, hdestroyer⟩ := threadStart_frame hs
      rw [Quiet, hadder, hdestroyer]
      exact h
  | call k routine new_work =>
      obtain ⟨-, ⟨⟩⟩ := Option.ite_none_right_eq_some.mp hs
      exact fun hne => absurd hadds hne
  | adder k woken =>
      obtain ⟨hbusy, hdestroyer⟩ := addTask2Tpool_frame hs
      rw [Quiet, hdestroyer]
      exact fun hne => absurd (h hne k) hbusy
  | destroyer =>
      rw [Quiet, destroyTpool_frame hs]
      intro _
      by_cases hidle : s.destroyer = .idle
      · exact hadds hidle
      · exact h hidle
  | spurious t =>
      obtain ⟨m, -, rfl⟩ := Option.map_eq_some_iff.mp hs
      exact h

/-! ## Whole runs -/

theorem Inv.step {a : Act n κ τ} (h : Inv s) (hadds : AddsReturned s a)
    (hs : ThreadPool.step s a = some s') : Inv s' := by
  refine ⟨h.sync.step hs, h.quiet.step hadds hs, ?_⟩
  rw [step.eq_def, Option.ite_none_left_eq_some] at hs
  obtain ⟨-, hs⟩ := hs
  cases a with
  | worker w => exact h.tasks.threadStart h.sync hs
  | call k routine new_work => exact h.tasks.call hs
  | adder k woken => exact h.tasks.addTask2Tpool h.sync hs
  | destroyer =>
      refine h.tasks.destroyTpool h.sync (fun hpc => ?_) hs
      exact h.quiet (by rw [hpc]; simp)
  | spurious t =>
      obtain ⟨m, -, rfl⟩ := Option.map_eq_some_iff.mp hs
      exact h.tasks.congr rfl rfl rfl rfl rfl rfl rfl rfl

theorem exec_inv_tasks {acts : List (Act n κ τ)}
    (hadds : Along step AddsReturned init acts)
    (hrun : exec step init acts = some s) : Inv s :=
  exec_inv_along (fun _ _ _ h hg hs => h.step hg hs) inv_init hadds hrun

/-! ## The contract -/

theorem tasks_partitioned {acts : List (Act n κ τ)}
    (hadds : Along step AddsReturned init acts)
    (hrun : exec step init acts = some s) :
    (∃ q : List Addr, Chain s.nextAt s.work_queue_head q ∧
      (∀ a ∈ q, s.heap a ≠ none) ∧
      (s.added : Multiset (Task τ)) = q.filterMap s.taskAt +
        ∑ w, s.runningAt w + s.ran + s.freed) ∧
    s.added.Nodup ∧ s.ran.Nodup ∧ s.dequeued <+: s.added ∧
    (s.freed ≠ [] → ∀ w, s.worker w = .exited) := by
  obtain ⟨q, hmem, hled⟩ := (exec_inv_tasks hadds hrun).tasks
  refine ⟨⟨q, hmem.chain, hmem.live, hled.partition⟩, hled.nodup_added,
    hled.nodup_ran, ?_, hled.freed⟩
  rw [hled.order]
  exact List.prefix_append _ _

/-- The worker runs the first of two tasks, and the second one is still in
the queue when the pool is destroyed. -/
def twoTasks : List (Act 1 Unit String) :=
  Act.call () "first" 0 :: List.replicate 5 (Act.adder () ∅) ++
  List.replicate 7 (Act.worker 0) ++
  Act.call () "second" 0 :: List.replicate 5 (Act.adder () ∅) ++
  List.replicate 6 Act.destroyer ++ List.replicate 4 (Act.worker 0) ++
  List.replicate 5 Act.destroyer

theorem tasks_partitioned_two : ∃ s : State 1 Unit String,
    exec step init twoTasks = some s ∧ s.ran = [⟨"first", 0⟩] ∧
      s.freed = [⟨"second", 1⟩] ∧ s.added.Nodup ∧ s.dequeued <+: s.added ∧
      s.worker 0 = .exited := by
  have hrun : (exec step init twoTasks).map (fun s => (s.ran, s.freed)) =
      some ([⟨"first", 0⟩], [⟨"second", 1⟩]) := by decide +kernel
  obtain ⟨s, hs, hres⟩ := Option.map_eq_some_iff.mp hrun
  simp only [Prod.mk.injEq] at hres
  obtain ⟨-, hnodup, -, hfifo, hfreed⟩ :=
    tasks_partitioned (by decide +kernel) hs
  exact ⟨s, hs, hres.1, hres.2, hnodup, hfifo,
    hfreed (by rw [hres.2]; nofun) 0⟩

end LearningLinux.ThreadPool
