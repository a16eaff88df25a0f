import LearningLinux.Lib.SList
import LearningLinux.ThreadPool.Sync
import Mathlib.Algebra.Order.Group.Multiset
import Mathlib.Data.Fintype.Basic
import Mathlib.Tactic.Abel

/-!
# Where the tasks of the pool are

Two invariants, on top of `Sync`. `Memory` is about the nodes: those of the
queue form a chain from `work_queue_head`, every other node in use belongs to
one thread, the adder that has made it or the worker that has taken it off,
and an adder inside the lock is where its walk to the end of the queue has
got to. `Ledger` is about the tasks on these nodes: what has been added is
what has been dequeued, then what has been freed, then what is in the queue,
and what has been dequeued has been run or is being run.

The calls of `add_task_2_tpool` return before `destroy_tpool` is called
(`AddsReturned`), as the program itself has it, so the destroyer frees the
queue when nobody else is left.
-/

namespace LearningLinux.ThreadPool

open LearningLinux.Lib

variable {n : Nat} {κ τ : Type*} {s s' : State n κ τ} {w : Fin n} {k : κ}
  {t u : Thread n κ} {a b : Addr} {q : List Addr}

/-! ## Who has a node -/

/-- The node a worker has taken off the queue and not freed yet. -/
def WorkerPc.work : WorkerPc → Option Addr
  | .unlock a | .run a | .free a => some a
  | _ => none

/-- The node whose task a worker is running. -/
def WorkerPc.running : WorkerPc → Option Addr
  | .unlock a | .run a => some a
  | _ => none

/-- The node an adder has not put into the queue yet. -/
def AdderPc.new_work : AdderPc → Option Addr
  | .lock a | .testHead a | .setHead a | .walk a _ | .link a _ => some a
  | _ => none

def State.owns (s : State n κ τ) : Thread n κ → Option Addr
  | .worker w => (s.worker w).work
  | .adder k => (s.adder k).new_work
  | .destroyer => none

/-- The task a worker is running. -/
def State.runningAt (s : State n κ τ) (w : Fin n) : Multiset (Task τ) :=
  ((s.worker w).running.bind s.taskAt).toList

theorem WorkerPc.work_of_running {p : WorkerPc} (h : p.running = some a) :
    p.work = some a := by
  cases p <;> first | exact h | cases h

/-! ## The invariants -/

/-- Where an adder has got to in the queue `q`. -/
def Place (s : State n κ τ) (q : List Addr) : AdderPc → Prop
  | .setHead _ => s.work_queue_head = none
  | .walk _ last_work => last_work ∈ q
  | .link _ last_work => last_work ∈ q ∧ s.nextAt last_work = none
  | _ => True

structure Memory (s : State n κ τ) (q : List Addr) : Prop where
  chain : Chain s.nextAt s.work_queue_head q
  live : ∀ a ∈ q, s.heap a ≠ none
  owned : ∀ t a, s.owns t = some a → s.heap a ≠ none ∧ a ∉ q
  inj : ∀ t u a, s.owns t = some a → s.owns u = some a → t = u
  fresh : ∀ k a, (s.adder k).new_work = some a → s.nextAt a = none
  place : ∀ k, Place s q (s.adder k)

structure Ledger (s : State n κ τ) (q : List Addr) : Prop where
  order : s.added = s.dequeued ++ (s.freed ++ q.filterMap s.taskAt)
  running : (s.dequeued : Multiset (Task τ)) = s.ran + ∑ w, s.runningAt w
  tickets : s.added.map Task.ticket = List.range s.added.length
  freed : s.freed ≠ [] → ∀ w, s.worker w = .exited

theorem memory_init : Memory (init : State n κ τ) [] where
  chain := rfl
  live := by intro a ha; cases ha
  owned := by intro t a ha; cases t <;> cases ha
  inj := by intro t u a ht; cases t <;> cases ht
  fresh := by intro k a ha; cases ha
  place := fun _ => trivial

theorem ledger_init : Ledger (init : State n κ τ) [] where
  order := rfl
  running := by
    have hnone : ∀ w : Fin n, (init : State n κ τ).runningAt w = 0 :=
      fun _ => rfl
    rw [Finset.sum_congr rfl fun w _ => hnone w, Finset.sum_const_zero]
    rfl
  tickets := rfl
  freed := fun h => absurd rfl h

/-! ## Nodes that stay as they are -/

theorem taskAt_congr (h : s'.heap a = s.heap a) : s'.taskAt a = s.taskAt a := by
  rw [State.taskAt, State.taskAt, h]

theorem nextAt_congr (h : s'.heap a = s.heap a) : s'.nextAt a = s.nextAt a := by
  rw [State.nextAt, State.nextAt, h]

theorem heap_release (hb : b ≠ a) : (s.release a).heap b = s.heap b := by
  change Function.update s.heap a none b = s.heap b
  rw [Function.update_of_ne hb]

theorem heap_enqueued {node : WorkQueue τ} (hb : b ≠ a) :
    (s.enqueued a node).heap b = s.heap b := by
  change Function.update s.heap a _ b = s.heap b
  rw [Function.update_of_ne hb]

theorem heap_enqueued_self {node : WorkQueue τ} : (s.enqueued a node).heap a =
    some ⟨node.routine, node.next, s.added.length⟩ :=
  Function.update_self a _ s.heap

theorem filterMap_taskAt_congr (h : ∀ a ∈ q, s'.taskAt a = s.taskAt a) :
    q.filterMap s'.taskAt = q.filterMap s.taskAt :=
  List.filterMap_congr h

theorem runningAt_congr (hpc : (s'.worker w).running = (s.worker w).running)
    (h : ∀ a, (s.worker w).running = some a → s'.taskAt a = s.taskAt a) :
    s'.runningAt w = s.runningAt w := by
  rw [State.runningAt, State.runningAt, hpc]
  cases hr : (s.worker w).running with
  | none => rfl
  | some a => rw [Option.bind_some, Option.bind_some, h a hr]

theorem Place.congr {p : AdderPc} (h : Place s q p)
    (hhead : s'.work_queue_head = s.work_queue_head)
    (hnext : ∀ a ∈ q, s'.nextAt a = s.nextAt a) : Place s' q p := by
  cases p with
  | setHead a => exact hhead.trans h
  | walk a l => exact h
  | link a l => exact ⟨h.1, (hnext l h.1).trans h.2⟩
  | _ => trivial

/-- Outside the lock an adder has no place in the queue. -/
theorem place_of_outside {p : AdderPc} (h : p.inside = false) :
    Place s q p := by
  cases p <;> trivial

theorem Memory.ne_of_owned (h : Memory s q) (hb : s.owns t = some b)
    (ha : a ∈ q) : a ≠ b := by
  intro heq
  exact (h.owned t b hb).2 (heq ▸ ha)

/-- A thread moves without touching the nodes. -/
theorem Memory.moved (h : Memory s q) (hheap : s'.heap = s.heap)
    (hhead : s'.work_queue_head = s.work_queue_head)
    (howns : ∀ t, s'.owns t = s.owns t)
    (hplace : ∀ k, Place s q (s'.adder k)) : Memory s' q := by
  have hnext : ∀ a, s'.nextAt a = s.nextAt a := fun a =>
    nextAt_congr (by rw [hheap])
  refine ⟨?_, ?_, ?_, ?_, ?_, ?_⟩
  · rw [hhead]
    exact h.chain.congr fun a _ => hnext a
  · rw [hheap]
    exact h.live
  · intro t a ha
    rw [hheap]
    exact h.owned t a ((howns t).symm.trans ha)
  · intro t u a ht hu
    exact h.inj t u a ((howns t).symm.trans ht) ((howns u).symm.trans hu)
  · intro k a ha
    rw [hnext]
    exact h.fresh k a ((howns (.adder k)).symm.trans ha)
  · intro k
    exact (hplace k).congr hhead fun a _ => hnext a

theorem Ledger.moved (h : Ledger s q) (hheap : s'.heap = s.heap)
    (hadded : s'.added = s.added) (hdequeued : s'.dequeued = s.dequeued)
    (hran : s'.ran = s.ran) (hfreed : s'.freed = s.freed)
    (hrunning : ∀ w, (s'.worker w).running = (s.worker w).running)
    (hexited : ∀ w, s.worker w = .exited → s'.worker w = .exited) :
    Ledger s' q := by
  have htask : ∀ a, s'.taskAt a = s.taskAt a := fun a =>
    taskAt_congr (by rw [hheap])
  refine ⟨?_, ?_, ?_, ?_⟩
  · rw [hadded, hdequeued, hfreed, filterMap_taskAt_congr fun a _ => htask a]
    exact h.order
  · rw [hdequeued, hran, Finset.sum_congr rfl fun w _ =>
      runningAt_congr (hrunning w) fun a _ => htask a]
    exact h.running
  · rw [hadded]
    exact h.tickets
  · rw [hfreed]
    exact fun hne w => hexited w (h.freed hne w)

/-! ## Nodes that change hands

One thread changes the queue or what it owns; the nodes of the others stay as
they are, and stay out of the queue. -/

theorem Memory.changed {q' : List Addr} {o : Option Addr} (h : Memory s q)
    (hself : s'.owns t = o) (hothers : ∀ u, u ≠ t → s'.owns u = s.owns u)
    (hheap : ∀ u b, u ≠ t → s.owns u = some b →
      s'.heap b = s.heap b ∧ b ∉ q')
    (hchain : Chain s'.nextAt s'.work_queue_head q')
    (hlive : ∀ b ∈ q', s'.heap b ≠ none)
    (hown : ∀ b, o = some b → s'.heap b ≠ none ∧ b ∉ q' ∧
      (∀ k, t = .adder k → s'.nextAt b = none) ∧
      ∀ u, u ≠ t → s.owns u ≠ some b)
    (hplace : ∀ k, Place s' q' (s'.adder k)) : Memory s' q' where
  chain := hchain
  live := hlive
  owned := by
    intro u b hu
    by_cases hut : u = t
    · rw [hut, hself] at hu
      exact ⟨(hown b hu).1, (hown b hu).2.1⟩
    · rw [hothers u hut] at hu
      rw [(hheap u b hut hu).1]
      exact ⟨(h.owned u b hu).1, (hheap u b hut hu).2⟩
  inj := by
    intro u v b hu hv
    by_cases hut : u = t
    · by_cases hvt : v = t
      · rw [hut, hvt]
      · rw [hut, hself] at hu
        rw [hothers v hvt] at hv
        exact absurd hv ((hown b hu).2.2.2 v hvt)
    · by_cases hvt : v = t
      · rw [hvt, hself] at hv
        rw [hothers u hut] at hu
        exact absurd hu ((hown b hv).2.2.2 u hut)
      · rw [hothers u hut] at hu
        rw [hothers v hvt] at hv
        exact h.inj u v b hu hv
  fresh := by
    intro j b hj
    change s'.owns (.adder j) = some b at hj
    by_cases hjt : .adder j = t
    · rw [hjt, hself] at hj
      exact (hown b hj).2.2.1 j hjt.symm
    · rw [hothers _ hjt] at hj
      rw [nextAt_congr (hheap _ b hjt hj).1]
      exact h.fresh j b hj
  place := hplace

theorem owns_workerTo {p : WorkerPc} (hu : u ≠ .worker w) :
    (s.workerTo w p).owns u = s.owns u := by
  cases u with
  | worker v =>
      have hv : v ≠ w := by
        intro heq
        exact hu (heq ▸ rfl)
      change (Function.update s.worker w p v).work = (s.worker v).work
      rw [Function.update_of_ne hv]
  | adder k => rfl
  | destroyer => rfl

theorem owns_workerTo_self {p : WorkerPc} :
    (s.workerTo w p).owns (.worker w) = p.work := by
  change (Function.update s.worker w p w).work = p.work
  rw [Function.update_self]

theorem running_workerTo_self {p : WorkerPc} :
    ((s.workerTo w p).worker w).running = p.running := by
  change (Function.update s.worker w p w).running = p.running
  rw [Function.update_self]

/-! ## A worker's share -/

section Worker

variable {p : WorkerPc} {task : Task τ}

/-- While a worker is inside, no adder is half way down the queue. -/
theorem Sync.place (hsync : Sync s) (hin : s.inside (.worker w) = true)
    (s' : State n κ τ) (k : κ) : Place s' q (s.adder k) := by
  refine place_of_outside ?_
  cases hk : (s.adder k).inside with
  | false => rfl
  | true => cases hsync.only hin (u := .adder k) hk

/-- The running tasks after one worker has moved. -/
theorem sum_running (s' : State n κ τ)
    (hpc : s'.worker = Function.update s.worker w p)
    (hheap : ∀ v a, v ≠ w → (s.worker v).running = some a →
      s'.taskAt a = s.taskAt a) :
    ∑ v, s'.runningAt v + s.runningAt w =
      ∑ v, s.runningAt v + s'.runningAt w := by
  refine sum_moved _ _ fun v hv => runningAt_congr ?_ fun a ha => hheap v a hv ha
  rw [hpc, Function.update_of_ne hv]

theorem runningAt_of_some (hr : (s.worker w).running = some a)
    (ha : s.taskAt a = some task) : s.runningAt w = {task} := by
  rw [State.runningAt, hr, Option.bind_some, ha]
  rfl

theorem runningAt_of_none (hr : (s.worker w).running = none) :
    s.runningAt w = 0 := by
  rw [State.runningAt, hr]
  rfl

theorem Memory.takeHead {node : WorkQueue τ} (h : Memory s (a :: q))
    (hsync : Sync s) (hpc : s.worker w = .dequeue)
    (hnode : s.heap a = some node) :
    Memory { s.workerTo w (.unlock a) with
      work_queue_head := node.next
      dequeued := s.dequeued ++ [⟨node.routine, node.ticket⟩] } q := by
  have hin : s.inside (.worker w) = true := by rw [State.inside, hpc]; rfl
  have hchain := (chain_cons.mp h.chain).2
  have hnext : s.nextAt a = node.next := by rw [State.nextAt, hnode]; rfl
  refine h.changed (t := .worker w) owns_workerTo_self
    (fun u hu => owns_workerTo hu) ?_ ?_ ?_ ?_ fun k => hsync.place hin _ k
  · intro u b _ hu
    refine ⟨rfl, fun hb => ?_⟩
    exact (h.owned u b hu).2 (List.mem_cons_of_mem a hb)
  · rw [hnext] at hchain
    exact hchain
  · exact fun b hb => h.live b (List.mem_cons_of_mem a hb)
  · intro b hb
    cases hb
    refine ⟨h.live a List.mem_cons_self,
      (List.nodup_cons.mp h.chain.nodup).1, by simp, ?_⟩
    intro u _ hu
    exact (h.owned u a hu).2 List.mem_cons_self

theorem Ledger.takeHead {node : WorkQueue τ} (h : Ledger s (a :: q))
    (hpc : s.worker w = .dequeue) (hnode : s.heap a = some node) :
    Ledger { s.workerTo w (.unlock a) with
      work_queue_head := node.next
      dequeued := s.dequeued ++ [⟨node.routine, node.ticket⟩] } q := by
  have htask : s.taskAt a = some ⟨node.routine, node.ticket⟩ := by
    rw [State.taskAt, hnode]
    rfl
  -- nothing has been freed while a worker is at work
  have hfreed : s.freed = [] := by
    by_contra hne
    have hexited := h.freed hne w
    rw [hpc] at hexited
    cases hexited
  refine ⟨?_, ?_, h.tickets, fun hne => absurd hfreed hne⟩
  · change s.added = s.dequeued ++ [_] ++ (s.freed ++ q.filterMap s.taskAt)
    rw [h.order, hfreed, List.filterMap_cons_some htask, List.append_assoc]
    rfl
  · have hmoved := sum_running (s := s) (w := w) (p := .unlock a)
      (s.workerTo w (.unlock a)) rfl fun _ _ _ _ => rfl
    rw [runningAt_of_none (by rw [hpc]; rfl), add_zero,
      runningAt_of_some (s := s.workerTo w (.unlock a))
        running_workerTo_self htask] at hmoved
    change ((s.dequeued ++ [_] : List (Task τ)) : Multiset (Task τ)) =
      s.ran + ∑ v, (s.workerTo w (.unlock a)).runningAt v
    rw [hmoved, ← Multiset.coe_add, h.running, add_assoc]
    rfl

theorem Memory.runTask {ran : List (Task τ)} (h : Memory s q)
    (hpc : s.worker w = .run a) :
    Memory { s.workerTo w (.free a) with
      ran := ran } q := by
  refine h.moved rfl rfl (fun u => ?_) h.place
  by_cases hu : u = .worker w
  · rw [hu]
    change (s.workerTo w (.free a)).owns (.worker w) = (s.worker w).work
    rw [owns_workerTo_self, hpc]
    rfl
  · exact owns_workerTo hu

theorem Ledger.runTask {node : WorkQueue τ} (h : Ledger s q)
    (hpc : s.worker w = .run a) (hnode : s.heap a = some node) :
    Ledger { s.workerTo w (.free a) with
      ran := s.ran ++ [⟨node.routine, node.ticket⟩] } q := by
  have htask : s.taskAt a = some ⟨node.routine, node.ticket⟩ := by
    rw [State.taskAt, hnode]
    rfl
  refine ⟨h.order, ?_, h.tickets, fun hne v => ?_⟩
  · have hmoved := sum_running (s := s) (w := w) (p := .free a)
      (s.workerTo w (.free a)) rfl fun _ _ _ _ => rfl
    rw [runningAt_of_some (by rw [hpc]; rfl) htask,
      runningAt_of_none (s := s.workerTo w (.free a)) running_workerTo_self,
      add_zero] at hmoved
    change (s.dequeued : Multiset (Task τ)) =
      ((s.ran ++ [_] : List (Task τ)) : Multiset (Task τ)) +
        ∑ v, (s.workerTo w (.free a)).runningAt v
    rw [h.running, ← hmoved, ← Multiset.coe_add, add_assoc,
      add_comm (∑ v, (s.workerTo w (.free a)).runningAt v)]
    rfl
  · have hexited := h.freed hne w
    rw [hpc] at hexited
    cases hexited

theorem Memory.freeWork (h : Memory s q) (hpc : s.worker w = .free a) :
    Memory ((s.release a).workerTo w .lock) q := by
  have howns : s.owns (.worker w) = some a := by rw [State.owns, hpc]; rfl
  have hne : ∀ b ∈ q, b ≠ a := fun b hb => h.ne_of_owned howns hb
  have hheap : ∀ b, b ≠ a →
      ((s.release a).workerTo w .lock).heap b = s.heap b := fun _ hb =>
    heap_release hb
  refine h.changed (t := .worker w) owns_workerTo_self
    (fun u hu => owns_workerTo hu) ?_ ?_ ?_ nofun fun k => ?_
  · intro u b hu hub
    refine ⟨hheap b ?_, (h.owned u b hub).2⟩
    intro heq
    exact hu (h.inj u _ a (heq ▸ hub) howns)
  · exact h.chain.congr fun b hb => nextAt_congr (hheap b (hne b hb))
  · intro b hb
    rw [hheap b (hne b hb)]
    exact h.live b hb
  · exact (h.place k).congr rfl fun b hb => nextAt_congr (hheap b (hne b hb))

theorem Ledger.freeWork (h : Ledger s q) (hmem : Memory s q)
    (hpc : s.worker w = .free a) :
    Ledger ((s.release a).workerTo w .lock) q := by
  have howns : s.owns (.worker w) = some a := by rw [State.owns, hpc]; rfl
  have htask : ∀ b, b ≠ a →
      ((s.release a).workerTo w .lock).taskAt b = s.taskAt b := fun _ hb =>
    taskAt_congr (heap_release hb)
  refine ⟨?_, ?_, h.tickets, fun hne => ?_⟩
  · rw [filterMap_taskAt_congr fun b hb =>
      htask b (hmem.ne_of_owned howns hb)]
    exact h.order
  · have hmoved := sum_running (s := s) (w := w) (p := .lock)
      ((s.release a).workerTo w .lock) rfl fun v b hv hr => htask b ?_
    · rw [runningAt_of_none (by rw [hpc]; rfl),
        runningAt_of_none (s := (s.release a).workerTo w .lock)
          running_workerTo_self, add_zero, add_zero] at hmoved
      rw [hmoved]
      exact h.running
    · intro heq
      have hv' := hmem.inj (.worker v) (.worker w) a
        (heq ▸ WorkerPc.work_of_running hr) howns
      cases hv'
      exact hv rfl
  · have hexited := h.freed hne w
    rw [hpc] at hexited
    cases hexited

end Worker

/-! ## An adder's share -/

section Adder

variable [DecidableEq κ] {p : AdderPc} {node : WorkQueue τ}

theorem owns_adderTo (hu : u ≠ .adder k) :
    (s.adderTo k p).owns u = s.owns u := by
  cases u with
  | adder j =>
      have hj : j ≠ k := by
        intro heq
        exact hu (heq ▸ rfl)
      change (Function.update s.adder k p j).new_work = (s.adder j).new_work
      rw [Function.update_of_ne hj]
  | worker w => rfl
  | destroyer => rfl

theorem owns_adderTo_self :
    (s.adderTo k p).owns (.adder k) = p.new_work := by
  change (Function.update s.adder k p k).new_work = p.new_work
  rw [Function.update_self]

/-- While an adder is inside, no other one is half way down the queue. -/
theorem Sync.place_adder (hsync : Sync s) (hin : (s.adder k).inside = true)
    (hp : p.inside = true → Place s' q p)
    (hpc : s'.adder = Function.update s.adder k p) (j : κ) :
    Place s' q (s'.adder j) := by
  rw [hpc]
  by_cases hjk : j = k
  · rw [hjk, Function.update_self]
    cases hpin : p.inside with
    | false => exact place_of_outside hpin
    | true => exact hp hpin
  · rw [Function.update_of_ne hjk]
    refine place_of_outside ?_
    cases hj : (s.adder j).inside with
    | false => rfl
    | true =>
        cases hsync.only (t := .adder k) hin (u := .adder j) hj
        exact absurd rfl hjk

theorem heap_alloc {routine : τ} (hfree : s.heap a = none)
    (hb : s.heap b ≠ none) :
    ((s.alloc a routine).adderTo k p).heap b = s.heap b := by
  change Function.update s.heap a _ b = s.heap b
  refine Function.update_of_ne ?_ _ _
  intro heq
  exact hb (heq ▸ hfree)

theorem heap_alloc_self {routine : τ} :
    ((s.alloc a routine).adderTo k p).heap a = some ⟨routine, none, 0⟩ :=
  Function.update_self a _ s.heap

theorem Memory.call {routine : τ} (h : Memory s q) (hfree : s.heap a = none) :
    Memory ((s.alloc a routine).adderTo k (.lock a)) q := by
  refine h.changed (t := .adder k) owns_adderTo_self
    (fun u hu => owns_adderTo (s := s.alloc a routine) hu) ?_ ?_ ?_ ?_ ?_
  · intro u b _ hu
    exact ⟨heap_alloc hfree (h.owned u b hu).1, (h.owned u b hu).2⟩
  · exact h.chain.congr fun b hb =>
      nextAt_congr (heap_alloc hfree (h.live b hb))
  · intro b hb
    rw [heap_alloc hfree (h.live b hb)]
    exact h.live b hb
  · intro b hb
    cases hb
    refine ⟨?_, fun ha => h.live a ha hfree, fun _ _ => ?_,
      fun u _ hu => (h.owned u a hu).1 hfree⟩
    · rw [heap_alloc_self]
      nofun
    · rw [State.nextAt, heap_alloc_self]
      rfl
  · intro j
    change Place _ q (Function.update s.adder k _ j)
    by_cases hjk : j = k
    · rw [hjk, Function.update_self]
      trivial
    · rw [Function.update_of_ne hjk]
      exact (h.place j).congr rfl
        fun b hb => nextAt_congr (heap_alloc hfree (h.live b hb))

theorem Ledger.call {routine : τ} (h : Ledger s q) (hmem : Memory s q)
    (hfree : s.heap a = none) :
    Ledger ((s.alloc a routine).adderTo k (.lock a)) q := by
  have htask : ∀ b, s.heap b ≠ none →
      ((s.alloc a routine).adderTo k (.lock a)).taskAt b = s.taskAt b :=
    fun b hb => taskAt_congr (heap_alloc hfree hb)
  refine ⟨?_, ?_, h.tickets, h.freed⟩
  · rw [filterMap_taskAt_congr fun b hb => htask b (hmem.live b hb)]
    exact h.order
  · have hrunning : ∀ v, ((s.alloc a routine).adderTo k
        (.lock a)).runningAt v = s.runningAt v := fun v =>
      runningAt_congr rfl fun b hb => htask b
        (hmem.owned (.worker v) b (WorkerPc.work_of_running hb)).1
    rw [Finset.sum_congr rfl fun v _ => hrunning v]
    exact h.running

/-- The new node `a` goes to the end of the queue, where `heap'` has linked
it, and its task gets the next ticket. -/
structure Appends (s s' : State n κ τ) (k : κ) (a : Addr)
    (node : WorkQueue τ) (q : List Addr) : Prop where
  adder : s'.adder = Function.update s.adder k .signal
  worker : s'.worker = s.worker
  chain : Chain s'.nextAt s'.work_queue_head (q ++ [a])
  live : ∀ b ∈ q, s'.heap b ≠ none
  live_new : s'.heap a ≠ none
  heap : ∀ b, b ≠ a → b ∉ q → s'.heap b = s.heap b
  task : ∀ b ∈ q, s'.taskAt b = s.taskAt b
  task_new : s'.taskAt a = some ⟨node.routine, s.added.length⟩
  added : s'.added = s.added ++ [⟨node.routine, s.added.length⟩]
  dequeued : s'.dequeued = s.dequeued
  ran : s'.ran = s.ran
  freed : s'.freed = s.freed

theorem Memory.appends (h : Memory s q) (hsync : Sync s)
    (hin : (s.adder k).inside = true)
    (hnew : (s.adder k).new_work = some a) (hs : Appends s s' k a node q) :
    Memory s' (q ++ [a]) := by
  have howns : s.owns (.adder k) = some a := hnew
  have hothers : ∀ v, v ≠ .adder k → s'.owns v = s.owns v := by
    intro v hv
    rw [← owns_adderTo (s := s) (p := .signal) hv]
    cases v with
    | worker w =>
        change (s'.worker w).work = (s.worker w).work
        rw [hs.worker]
    | adder j =>
        change (s'.adder j).new_work =
          (Function.update s.adder k .signal j).new_work
        rw [hs.adder]
    | destroyer => rfl
  refine h.changed (t := .adder k) (o := none) ?_ hothers ?_ hs.chain ?_ nofun
    (hsync.place_adder (p := .signal) hin (fun _ => trivial) hs.adder)
  · change (s'.adder k).new_work = none
    rw [hs.adder, Function.update_self]
    rfl
  · intro v b hv hb
    have hbq := (h.owned v b hb).2
    have hba : b ≠ a := by
      intro heq
      exact hv (h.inj v _ a (heq ▸ hb) howns)
    refine ⟨hs.heap b hba hbq, fun hmem => ?_⟩
    rcases List.mem_append.mp hmem with hmem | hmem
    · exact hbq hmem
    · exact hba (List.mem_singleton.mp hmem)
  · intro b hb
    rcases List.mem_append.mp hb with hb | hb
    · exact hs.live b hb
    · rw [List.mem_singleton.mp hb]
      exact hs.live_new

theorem Ledger.appends (h : Ledger s q) (hmem : Memory s q)
    (hnew : (s.adder k).new_work = some a) (hs : Appends s s' k a node q) :
    Ledger s' (q ++ [a]) := by
  have howns : s.owns (.adder k) = some a := hnew
  refine ⟨?_, ?_, ?_, ?_⟩
  · rw [hs.added, hs.dequeued, hs.freed, List.filterMap_append,
      filterMap_taskAt_congr hs.task, List.filterMap_cons_some hs.task_new,
      List.filterMap_nil, ← List.append_assoc s.freed, ← List.append_assoc,
      ← h.order]
  · rw [hs.dequeued, hs.ran, Finset.sum_congr rfl fun v _ =>
      runningAt_congr (s := s) (by rw [hs.worker]) fun b hb => ?_]
    · exact h.running
    · have hvb : s.owns (.worker v) = some b := WorkerPc.work_of_running hb
      refine taskAt_congr (hs.heap b ?_ (hmem.owned _ b hvb).2)
      intro heq
      cases hmem.inj _ _ a (heq ▸ hvb) howns
  · rw [hs.added, List.map_append, h.tickets, List.length_append,
      List.length_singleton, List.range_succ]
    rfl
  · rw [hs.freed, hs.worker]
    exact h.freed

theorem appends_setHead (h : Memory s q) (hpc : s.adder k = .setHead a)
    (hnode : s.heap a = some node) :
    q = [] ∧ Appends s { (s.enqueued a node).adderTo k .signal with
      work_queue_head := some a } k a node [] := by
  have hnone : s.work_queue_head = none := by
    have hplace := h.place k
    rwa [hpc] at hplace
  have hchain := h.chain
  rw [hnone] at hchain
  have hfresh := h.fresh k a (by rw [hpc]; rfl)
  rw [State.nextAt, hnode] at hfresh
  refine ⟨hchain.eq_nil, rfl, rfl, ⟨rfl, ?_⟩, nofun, ?_,
    fun b hb _ => heap_enqueued hb, nofun, ?_, rfl, rfl, rfl, rfl⟩
  · change ((s.enqueued a node).heap a).bind (·.next) = none
    rw [heap_enqueued_self]
    exact hfresh
  · change (s.enqueued a node).heap a ≠ none
    rw [heap_enqueued_self]
    nofun
  · change ((s.enqueued a node).heap a).map _ = _
    rw [heap_enqueued_self]
    rfl

theorem appends_link {last : WorkQueue τ} (h : Memory s q)
    (hpc : s.adder k = .link a b) (hnode : s.heap a = some node)
    (hlast : (s.enqueued a node).heap b = some last) :
    Appends s { (s.enqueued a node).adderTo k .signal with
      heap := Function.update (s.enqueued a node).heap b
        (some { last with
          next := some a }) } k a node q := by
  obtain ⟨hb, hend⟩ : b ∈ q ∧ s.nextAt b = none := by
    have hplace := h.place k
    rwa [hpc] at hplace
  have hnew : s.owns (.adder k) = some a := by rw [State.owns, hpc]; rfl
  have hne : ∀ c ∈ q, c ≠ a := fun c hc => h.ne_of_owned hnew hc
  have hfresh := h.fresh k a hnew
  rw [State.nextAt, hnode] at hfresh
  rw [heap_enqueued (hne b hb)] at hlast
  let s' : State n κ τ := { (s.enqueued a node).adderTo k .signal with
    heap := Function.update (s.enqueued a node).heap b
      (some { last with
        next := some a }) }
  have hheap : ∀ c, c ≠ a → c ≠ b → s'.heap c = s.heap c := by
    intro c hca hcb
    change Function.update (s.enqueued a node).heap b _ c = _
    rw [Function.update_of_ne hcb, heap_enqueued hca]
  have hheap_b : s'.heap b = some ⟨last.routine, some a, last.ticket⟩ :=
    Function.update_self b _ _
  have hheap_a : s'.heap a =
      some ⟨node.routine, node.next, s.added.length⟩ := by
    change Function.update (s.enqueued a node).heap b _ a = _
    rw [Function.update_of_ne (hne b hb).symm, heap_enqueued_self]
  have hcases : ∀ c ∈ q, c = b ∨ s'.heap c = s.heap c := by
    intro c hc
    by_cases hcb : c = b
    · exact .inl hcb
    · exact .inr (hheap c (hne c hc) hcb)
  refine ⟨rfl, rfl, ?_, ?_, ?_, ?_, ?_, ?_, rfl, rfl, rfl, rfl⟩
  · refine h.chain.snoc hb hend ?_ ?_ fun c hc hcb =>
      nextAt_congr (hheap c (hne c hc) hcb)
    · change (s'.heap b).bind (·.next) = some a
      rw [hheap_b]
      rfl
    · change (s'.heap a).bind (·.next) = none
      rw [hheap_a]
      exact hfresh
  · intro c hc
    change s'.heap c ≠ none
    rcases hcases c hc with rfl | heq
    · rw [hheap_b]
      nofun
    · rw [heq]
      exact h.live c hc
  · change s'.heap a ≠ none
    rw [hheap_a]
    nofun
  · intro c hca hcq
    refine hheap c hca fun hcb => ?_
    exact hcq (hcb ▸ hb)
  · intro c hc
    change s'.taskAt c = s.taskAt c
    rcases hcases c hc with rfl | heq
    · rw [State.taskAt, State.taskAt, hheap_b, hlast]
      rfl
    · exact taskAt_congr heq
  · change s'.taskAt a = _
    rw [State.taskAt, hheap_a]
    rfl

end Adder

/-! ## The destroyer's share -/

theorem Memory.freeHead {node : WorkQueue τ} (h : Memory s (a :: q))
    (hnode : s.heap a = some node) (hnobody : ∀ t, s.owns t = none)
    (hidle : ∀ k, s.adder k = .idle) :
    Memory { s.release a with
      work_queue_head := node.next
      freed := s.freed ++ [⟨node.routine, node.ticket⟩] } q := by
  have hchain := (chain_cons.mp h.chain).2
  have hnext : s.nextAt a = node.next := by rw [State.nextAt, hnode]; rfl
  have hne : ∀ b ∈ q, b ≠ a := by
    intro b hb heq
    exact (List.nodup_cons.mp h.chain.nodup).1 (heq ▸ hb)
  refine h.changed (t := .destroyer) (o := none) rfl (fun u _ => rfl) ?_ ?_ ?_
    nofun ?_
  · intro u b _ hu
    rw [hnobody u] at hu
    cases hu
  · rw [hnext] at hchain
    exact hchain.congr fun b hb => nextAt_congr (heap_release (hne b hb))
  · intro b hb
    change (s.release a).heap b ≠ none
    rw [heap_release (hne b hb)]
    exact h.live b (List.mem_cons_of_mem a hb)
  · intro k
    refine place_of_outside ?_
    change (s.adder k).inside = false
    rw [hidle k]
    rfl

theorem Ledger.freeHead {node : WorkQueue τ} (h : Ledger s (a :: q))
    (hmem : Memory s (a :: q)) (hnode : s.heap a = some node)
    (hexited : ∀ w, s.worker w = .exited) :
    Ledger { s.release a with
      work_queue_head := node.next
      freed := s.freed ++ [⟨node.routine, node.ticket⟩] } q := by
  have htask : s.taskAt a = some ⟨node.routine, node.ticket⟩ := by
    rw [State.taskAt, hnode]
    rfl
  have hne : ∀ b ∈ q, b ≠ a := by
    intro b hb heq
    exact (List.nodup_cons.mp hmem.chain.nodup).1 (heq ▸ hb)
  have hrest : q.filterMap (s.release a).taskAt = q.filterMap s.taskAt :=
    filterMap_taskAt_congr fun b hb => taskAt_congr (heap_release (hne b hb))
  have hrunning : ∀ v, (s.release a).runningAt v = s.runningAt v := by
    intro v
    refine runningAt_congr rfl fun b hb => ?_
    rw [hexited v] at hb
    cases hb
  refine ⟨?_, ?_, h.tickets, fun _ => hexited⟩
  · change s.added = s.dequeued ++ (s.freed ++ [_] ++
      q.filterMap (s.release a).taskAt)
    rw [hrest, h.order, List.filterMap_cons_some htask, List.append_assoc]
    rfl
  · change (s.dequeued : Multiset (Task τ)) =
      s.ran + ∑ v, (s.release a).runningAt v
    rw [Finset.sum_congr rfl fun v _ => hrunning v]
    exact h.running

/-! ## What the ledger says -/

theorem Ledger.partition (h : Ledger s q) :
    (s.added : Multiset (Task τ)) = q.filterMap s.taskAt +
      ∑ w, s.runningAt w + s.ran + s.freed := by
  rw [h.order, ← Multiset.coe_add, ← Multiset.coe_add, h.running]
  abel

theorem Ledger.nodup_added (h : Ledger s q) : s.added.Nodup := by
  refine List.Nodup.of_map Task.ticket ?_
  rw [h.tickets]
  exact List.nodup_range

theorem Ledger.nodup_ran (h : Ledger s q) : s.ran.Nodup := by
  have hle : (s.ran : Multiset (Task τ)) ≤ s.added := by
    rw [h.order, ← Multiset.coe_add, h.running, add_assoc]
    exact Multiset.le_add_right _ _
  exact Multiset.coe_nodup.mp
    (Multiset.nodup_of_le hle (Multiset.coe_nodup.mpr h.nodup_added))

end LearningLinux.ThreadPool
