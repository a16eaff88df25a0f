import LearningLinux.ThreadPool.Model

/-!
# The steps of the pool's threads

What a step of each of the three functions can be, said once: the statement
the thread was at, what let it go on, and the state it leaves. The invariants
go through these cases and never look into the functions.
-/

namespace LearningLinux.ThreadPool

open LearningLinux.Lib

variable {n : Nat} {κ τ : Type*} [DecidableEq κ] {s s' : State n κ τ}
  {w : Fin n} {k : κ}

/-- The mutex taken by `t`. -/
def State.locked (s : State n κ τ) (t : Thread n κ) :
    Monitor (Thread n κ) Unit := ⟨some t, s.mon.waiting⟩

def State.unlocked (s : State n κ τ) : Monitor (Thread n κ) Unit :=
  ⟨none, s.mon.waiting⟩

/-! ## `thread_start` -/

inductive WorkerStep (s : State n κ τ) (w : Fin n) : State n κ τ → Prop where
  | lock (hpc : s.worker w = .lock) (hfree : s.mon.owner = none) :
      WorkerStep s w ((s.workerTo w .testHead).withMon (s.locked (.worker w)))
  | testHead (hpc : s.worker w = .testHead) :
      WorkerStep s w (s.workerTo w
        (if s.work_queue_head = none then .testShutdown else .ifShutdown))
  | testShutdown (hpc : s.worker w = .testShutdown) :
      WorkerStep s w (s.workerTo w (if s.shutdown then .ifShutdown else .wait))
  | wait (hpc : s.worker w = .wait)
      (howns : s.mon.owner = some (.worker w)) :
      WorkerStep s w ((s.workerTo w .blocked).withMon
        ⟨none, Function.update s.mon.waiting ()
          (insert (.worker w) (s.mon.waiting ()))⟩)
  | blocked (hpc : s.worker w = .blocked)
      (hawake : .worker w ∉ s.mon.waiting ()) (hfree : s.mon.owner = none) :
      WorkerStep s w ((s.workerTo w .testHead).withMon (s.locked (.worker w)))
  | ifShutdown (hpc : s.worker w = .ifShutdown) :
      WorkerStep s w
        (s.workerTo w (if s.shutdown then .exitUnlock else .dequeue))
  | exitUnlock (hpc : s.worker w = .exitUnlock)
      (howns : s.mon.owner = some (.worker w)) :
      WorkerStep s w ((s.workerTo w .exited).withMon s.unlocked)
  | dequeue {work : Addr} {node : WorkQueue τ} (hpc : s.worker w = .dequeue)
      (hhead : s.work_queue_head = some work)
      (hnode : s.heap work = some node) :
      WorkerStep s w
        { s.workerTo w (.unlock work) with
          work_queue_head := node.next
          dequeued := s.dequeued ++ [⟨node.routine, node.ticket⟩] }
  | unlock {work : Addr} (hpc : s.worker w = .unlock work)
      (howns : s.mon.owner = some (.worker w)) :
      WorkerStep s w ((s.workerTo w (.run work)).withMon s.unlocked)
  | run {work : Addr} {node : WorkQueue τ} (hpc : s.worker w = .run work)
      (hnode : s.heap work = some node) :
      WorkerStep s w
        { s.workerTo w (.free work) with
          ran := s.ran ++ [⟨node.routine, node.ticket⟩] }
  | free {work : Addr} (hpc : s.worker w = .free work) :
      WorkerStep s w ((s.release work).workerTo w .lock)

theorem threadStart_cases (hs : s.threadStart w = some s') :
    WorkerStep s w s' := by
  rw [State.threadStart] at hs
  cases hpc : s.worker w with
  | lock =>
      simp only [hpc] at hs
      obtain ⟨m, hm, rfl⟩ := Option.map_eq_some_iff.mp hs
      obtain ⟨hfree, rfl⟩ := Monitor.lock_eq_some.mp hm
      exact .lock hpc hfree
  | testHead =>
      simp only [hpc] at hs
      cases hs
      exact .testHead hpc
  | testShutdown =>
      simp only [hpc] at hs
      cases hs
      exact .testShutdown hpc
  | wait =>
      simp only [hpc] at hs
      obtain ⟨m, hm, rfl⟩ := Option.map_eq_some_iff.mp hs
      obtain ⟨howns, rfl⟩ := Monitor.wait_eq_some.mp hm
      exact .wait hpc howns
  | blocked =>
      simp only [hpc] at hs
      obtain ⟨m, hm, rfl⟩ := Option.map_eq_some_iff.mp hs
      obtain ⟨hawake, hfree, rfl⟩ := Monitor.relock_eq_some.mp hm
      exact .blocked hpc hawake hfree
  | ifShutdown =>
      simp only [hpc] at hs
      cases hs
      exact .ifShutdown hpc
  | exitUnlock =>
      simp only [hpc] at hs
      obtain ⟨m, hm, rfl⟩ := Option.map_eq_some_iff.mp hs
      obtain ⟨howns, rfl⟩ := Monitor.unlock_eq_some.mp hm
      exact .exitUnlock hpc howns
  | exited =>
      simp only [hpc] at hs
      cases hs
  | dequeue =>
      simp only [hpc] at hs
      obtain ⟨work, hhead, hs⟩ := Option.bind_eq_some_iff.mp hs
      obtain ⟨node, hnode, rfl⟩ := Option.map_eq_some_iff.mp hs
      exact .dequeue hpc hhead hnode
  | unlock work =>
      simp only [hpc] at hs
      obtain ⟨m, hm, rfl⟩ := Option.map_eq_some_iff.mp hs
      obtain ⟨howns, rfl⟩ := Monitor.unlock_eq_some.mp hm
      exact .unlock hpc howns
  | run work =>
      simp only [hpc] at hs
      obtain ⟨node, hnode, rfl⟩ := Option.map_eq_some_iff.mp hs
      exact .run hpc hnode
  | free work =>
      simp only [hpc] at hs
      cases hs
      exact .free hpc

/-! ## `add_task_2_tpool` -/

inductive AdderStep (s : State n κ τ) (k : κ) (woken : Finset (Thread n κ)) :
    State n κ τ → Prop where
  | lock {new_work : Addr} (hpc : s.adder k = .lock new_work)
      (hfree : s.mon.owner = none) :
      AdderStep s k woken
        ((s.adderTo k (.testHead new_work)).withMon (s.locked (.adder k)))
  | empty {new_work : Addr} (hpc : s.adder k = .testHead new_work)
      (hhead : s.work_queue_head = none) :
      AdderStep s k woken (s.adderTo k (.setHead new_work))
  | first {new_work last_work : Addr} (hpc : s.adder k = .testHead new_work)
      (hhead : s.work_queue_head = some last_work) :
      AdderStep s k woken (s.adderTo k (.walk new_work last_work))
  | setHead {new_work : Addr} {node : WorkQueue τ}
      (hpc : s.adder k = .setHead new_work)
      (hnode : s.heap new_work = some node) :
      AdderStep s k woken
        { (s.enqueued new_work node).adderTo k .signal with
          work_queue_head := some new_work }
  | last {new_work last_work : Addr} {last : WorkQueue τ}
      (hpc : s.adder k = .walk new_work last_work)
      (hlast : s.heap last_work = some last) (hnext : last.next = none) :
      AdderStep s k woken (s.adderTo k (.link new_work last_work))
  | walk {new_work last_work next_work : Addr} {last : WorkQueue τ}
      (hpc : s.adder k = .walk new_work last_work)
      (hlast : s.heap last_work = some last)
      (hnext : last.next = some next_work) :
      AdderStep s k woken (s.adderTo k (.walk new_work next_work))
  | link {new_work last_work : Addr} {node last : WorkQueue τ}
      (hpc : s.adder k = .link new_work last_work)
      (hnode : s.heap new_work = some node)
      (hlast : (s.enqueued new_work node).heap last_work = some last) :
      AdderStep s k woken
        { (s.enqueued new_work node).adderTo k .signal with
          heap := Function.update (s.enqueued new_work node).heap last_work
            (some { last with
              next := some new_work }) }
  | signal (hpc : s.adder k = .signal) (hsub : woken ⊆ s.mon.waiting ())
      (hsome : woken = ∅ → s.mon.waiting () = ∅) :
      AdderStep s k woken ((s.adderTo k .unlock).withMon
        ⟨s.mon.owner,
          Function.update s.mon.waiting () (s.mon.waiting () \ woken)⟩)
  | unlock (hpc : s.adder k = .unlock)
      (howns : s.mon.owner = some (.adder k)) :
      AdderStep s k woken ((s.adderTo k .idle).withMon s.unlocked)

theorem addTask2Tpool_cases {woken : Finset (Thread n κ)}
    (hs : s.addTask2Tpool k woken = some s') : AdderStep s k woken s' := by
  rw [State.addTask2Tpool] at hs
  cases hpc : s.adder k with
  | idle =>
      simp only [hpc] at hs
      cases hs
  | lock new_work =>
      simp only [hpc] at hs
      obtain ⟨m, hm, rfl⟩ := Option.map_eq_some_iff.mp hs
      obtain ⟨hfree, rfl⟩ := Monitor.lock_eq_some.mp hm
      exact .lock hpc hfree
  | testHead new_work =>
      simp only [hpc] at hs
      cases hs
      cases hhead : s.work_queue_head with
      | none => exact .empty hpc hhead
      | some last_work => exact .first hpc hhead
  | setHead new_work =>
      simp only [hpc] at hs
      obtain ⟨node, hnode, rfl⟩ := Option.map_eq_some_iff.mp hs
      exact .setHead hpc hnode
  | walk new_work last_work =>
      simp only [hpc] at hs
      obtain ⟨last, hlast, rfl⟩ := Option.map_eq_some_iff.mp hs
      cases hnext : last.next with
      | none => exact .last hpc hlast hnext
      | some next_work => exact .walk hpc hlast hnext
  | link new_work last_work =>
      simp only [hpc] at hs
      obtain ⟨node, hnode, hs⟩ := Option.bind_eq_some_iff.mp hs
      obtain ⟨last, hlast, rfl⟩ := Option.map_eq_some_iff.mp hs
      exact .link hpc hnode hlast
  | signal =>
      simp only [hpc] at hs
      obtain ⟨m, hm, rfl⟩ := Option.map_eq_some_iff.mp hs
      obtain ⟨hsub, hsome, rfl⟩ := Monitor.signal_eq_some.mp hm
      exact .signal hpc hsub hsome
  | unlock =>
      simp only [hpc] at hs
      obtain ⟨m, hm, rfl⟩ := Option.map_eq_some_iff.mp hs
      obtain ⟨howns, rfl⟩ := Monitor.unlock_eq_some.mp hm
      exact .unlock hpc howns

/-! ## `destroy_tpool` -/

inductive DestroyerStep (s : State n κ τ) : State n κ τ → Prop where
  | call (hpc : s.destroyer = .idle) : DestroyerStep s (s.destroyerTo .test)
  | test (hpc : s.destroyer = .test) : DestroyerStep s
      (s.destroyerTo (if s.shutdown then .done else .setShutdown))
  | setShutdown (hpc : s.destroyer = .setShutdown) : DestroyerStep s
      { s.destroyerTo .lock with
        shutdown := true }
  | lock (hpc : s.destroyer = .lock) (hfree : s.mon.owner = none) :
      DestroyerStep s
        ((s.destroyerTo .broadcast).withMon (s.locked .destroyer))
  | broadcast (hpc : s.destroyer = .broadcast) : DestroyerStep s
      ((s.destroyerTo .unlock).withMon (s.mon.broadcast ()))
  | unlock (hpc : s.destroyer = .unlock)
      (howns : s.mon.owner = some .destroyer) :
      DestroyerStep s ((s.destroyerTo (.join 0)).withMon s.unlocked)
  | join {i : Nat} (hpc : s.destroyer = .join i) (hi : i < n)
      (hexited : s.worker ⟨i, hi⟩ = .exited) :
      DestroyerStep s (s.destroyerTo (.join (i + 1)))
  | joined {i : Nat} (hpc : s.destroyer = .join i) (hi : ¬ i < n) :
      DestroyerStep s (s.destroyerTo .drain)
  | drained (hpc : s.destroyer = .drain) (hhead : s.work_queue_head = none) :
      DestroyerStep s (s.destroyerTo .free)
  | drain {a : Addr} {node : WorkQueue τ} (hpc : s.destroyer = .drain)
      (hhead : s.work_queue_head = some a) (hnode : s.heap a = some node) :
      DestroyerStep s
        { s.release a with
          work_queue_head := node.next
          freed := s.freed ++ [⟨node.routine, node.ticket⟩] }
  | free (hpc : s.destroyer = .free) : DestroyerStep s
      { s.destroyerTo .done with
        freedPool := true }

theorem destroyTpool_cases (hs : s.destroyTpool = some s') :
    DestroyerStep s s' := by
  rw [State.destroyTpool] at hs
  cases hpc : s.destroyer with
  | idle =>
      simp only [hpc] at hs
      cases hs
      exact .call hpc
  | test =>
      simp only [hpc] at hs
      cases hs
      exact .test hpc
  | setShutdown =>
      simp only [hpc] at hs
      cases hs
      exact .setShutdown hpc
  | lock =>
      simp only [hpc] at hs
      obtain ⟨m, hm, rfl⟩ := Option.map_eq_some_iff.mp hs
      obtain ⟨hfree, rfl⟩ := Monitor.lock_eq_some.mp hm
      exact .lock hpc hfree
  | broadcast =>
      simp only [hpc] at hs
      cases hs
      exact .broadcast hpc
  | unlock =>
      simp only [hpc] at hs
      obtain ⟨m, hm, rfl⟩ := Option.map_eq_some_iff.mp hs
      obtain ⟨howns, rfl⟩ := Monitor.unlock_eq_some.mp hm
      exact .unlock hpc howns
  | join i =>
      simp only [hpc] at hs
      split at hs
      · next hi =>
          obtain ⟨hexited, ⟨⟩⟩ := Option.ite_none_right_eq_some.mp hs
          exact .join hpc hi hexited
      · next hi =>
          cases hs
          exact .joined hpc hi
  | drain =>
      simp only [hpc] at hs
      cases hhead : s.work_queue_head with
      | none =>
          simp only [hhead] at hs
          cases hs
          exact .drained hpc hhead
      | some a =>
          simp only [hhead] at hs
          obtain ⟨node, hnode, rfl⟩ := Option.map_eq_some_iff.mp hs
          exact .drain hpc hhead hnode
  | free =>
      simp only [hpc] at hs
      cases hs
      exact .free hpc
  | done =>
      simp only [hpc] at hs
      cases hs

end LearningLinux.ThreadPool
