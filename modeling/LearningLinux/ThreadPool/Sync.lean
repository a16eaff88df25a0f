import LearningLinux.ThreadPool.Steps

/-!
# What the threads of the pool rely on when they wait

`Sync` is the invariant of the lock, the condition variable and the flag: the
lock excludes, only workers wait, a worker about to wait has seen an empty
queue that is still empty, and while every worker is waiting the queue is
empty or an adder is about to signal. The last clause is kept for a simple
reason: the workers look at the queue and go to sleep under the lock, and an
adder holds the lock from its enqueue to its signal. A task that is stolen
from the worker it was signalled for does no harm, since the thief is awake.

The lemmas come in two groups. The first says what a thread may do when it
moves from one statement to another, once for each kind of thread; the second
goes through the statements of the three functions and finds them to be such
moves.
-/

namespace LearningLinux.ThreadPool

open LearningLinux.Lib

/-! ## Inside the lock -/

def WorkerPc.inside : WorkerPc → Bool
  | .testHead | .testShutdown | .wait | .ifShutdown | .exitUnlock | .dequeue
  | .unlock _ => true
  | .lock | .blocked | .exited | .run _ | .free _ => false

def AdderPc.inside : AdderPc → Bool
  | .testHead _ | .setHead _ | .walk _ _ | .link _ _ | .signal | .unlock => true
  | .idle | .lock _ => false

def DestroyerPc.inside : DestroyerPc → Bool
  | .broadcast | .unlock => true
  | _ => false

variable {n : Nat} {κ τ : Type*} {s s' : State n κ τ} {w : Fin n} {k : κ}
  {t : Thread n κ} {m : Monitor (Thread n κ) Unit}

def State.inside (s : State n κ τ) : Thread n κ → Bool
  | .worker w => (s.worker w).inside
  | .adder k => (s.adder k).inside
  | .destroyer => s.destroyer.inside

/-- Every worker has been joined. -/
def DestroyerPc.joined : DestroyerPc → Bool
  | .drain | .free => true
  | _ => false

/-- `shutdown` has been set and the broadcast is still to come. -/
def DestroyerPc.announced : DestroyerPc → Bool
  | .lock | .broadcast => true
  | _ => false

/-! ## The invariant -/

structure Sync (s : State n κ τ) : Prop where
  excl : Excl s.mon.owner fun t => s.inside t = true
  waiting : ∀ t ∈ s.mon.waiting (), ∃ w, t = .worker w ∧ s.worker w = .blocked
  joining : ∀ i, s.destroyer = .join i → ∀ w : Fin n, w < i →
    s.worker w = .exited
  joined : s.destroyer.joined = true → ∀ w, s.worker w = .exited
  announced : s.destroyer.announced = true → s.shutdown = true
  empty : ∀ w, s.worker w = .testShutdown ∨ s.worker w = .wait →
    s.work_queue_head = none
  woken : 0 < n → s.work_queue_head ≠ none →
    (∀ w, .worker w ∈ s.mon.waiting ()) → ∃ k, s.adder k = .signal

theorem sync_init : Sync (init : State n κ τ) where
  excl := by intro t ht; cases t <;> cases ht
  waiting := by intro t ht; cases ht
  joining := by intro i hi; cases hi
  joined := nofun
  announced := nofun
  empty := by intro w hw; rfl
  woken := by intro _ hne; exact absurd rfl hne

/-- The invariant is about the fields that the threads synchronise on. -/
theorem Sync.congr (h : Sync s) (hmon : s'.mon = s.mon)
    (hworker : s'.worker = s.worker) (hadder : s'.adder = s.adder)
    (hdestroyer : s'.destroyer = s.destroyer)
    (hshutdown : s'.shutdown = s.shutdown)
    (hhead : s'.work_queue_head = s.work_queue_head) : Sync s' where
  excl := by
    intro t ht
    rw [hmon]
    refine h.excl t ?_
    cases t <;> simpa only [State.inside, hworker, hadder, hdestroyer] using ht
  waiting := by rw [hmon, hworker]; exact h.waiting
  joining := by rw [hdestroyer, hworker]; exact h.joining
  joined := by rw [hdestroyer, hworker]; exact h.joined
  announced := by rw [hdestroyer, hshutdown]; exact h.announced
  empty := by rw [hworker, hhead]; exact h.empty
  woken := by rw [hmon, hadder, hhead]; exact h.woken

/-- A thread that waits is not inside. -/
theorem Sync.not_waiting (h : Sync s) (hin : s.inside t = true) :
    t ∉ s.mon.waiting () := by
  intro ht
  obtain ⟨w, rfl, hw⟩ := h.waiting t ht
  rw [State.inside, hw] at hin
  cases hin

/-- Only one thread is inside. -/
theorem Sync.only (h : Sync s) (hin : s.inside t = true) {u : Thread n κ}
    (hu : s.inside u = true) : u = t :=
  h.excl.eq (h.excl t hin) hu

/-! ## A worker moves -/

section Worker

variable {p : WorkerPc}

theorem inside_workerTo {u : Thread n κ} (hu : u ≠ .worker w)
    (h : (s.workerTo w p).inside u = true) : s.inside u = true := by
  cases u with
  | worker v =>
      have hv : v ≠ w := by
        intro heq
        exact hu (heq ▸ rfl)
      change (Function.update s.worker w p v).inside = true at h
      rwa [Function.update_of_ne hv] at h
  | adder k => exact h
  | destroyer => exact h

theorem inside_workerTo_self :
    (s.workerTo w p).inside (.worker w) = p.inside := by
  change (Function.update s.worker w p w).inside = p.inside
  rw [Function.update_self]

/-- A worker that has exited is not the one that moves. -/
theorem exited_workerTo {v : Fin n} (hne : s.worker w ≠ .exited)
    (hv : s.worker v = .exited) : (s.workerTo w p).worker v = .exited := by
  have hvw : v ≠ w := by
    intro heq
    exact hne (heq ▸ hv)
  exact (Function.update_of_ne hvw p s.worker).trans hv

/-- A worker that has not exited yet moves to `p`, and nobody new waits but
perhaps this worker, over an empty queue. -/
theorem Sync.worker (h : Sync s) (hne : s.worker w ≠ .exited)
    (hexcl : Excl m.owner fun t => (s.workerTo w p).inside t = true)
    (hothers : ∀ t ∈ m.waiting (), t ≠ .worker w → t ∈ s.mon.waiting ())
    (hself : .worker w ∈ m.waiting () → p = .blocked ∧
      (.worker w ∈ s.mon.waiting () ∨ s.work_queue_head = none))
    (hempty : p = .testShutdown ∨ p = .wait → s.work_queue_head = none) :
    Sync ((s.workerTo w p).withMon m) where
  excl := hexcl
  waiting := by
    intro t ht
    by_cases htw : t = .worker w
    · subst htw
      refine ⟨w, rfl, ?_⟩
      change Function.update s.worker w p w = _
      rw [Function.update_self, (hself ht).1]
    · obtain ⟨v, rfl, hv⟩ := h.waiting t (hothers t ht htw)
      have hvw : v ≠ w := by
        intro heq
        exact htw (heq ▸ rfl)
      refine ⟨v, rfl, ?_⟩
      change Function.update s.worker w p v = _
      rw [Function.update_of_ne hvw, hv]
  joining := fun i hi v hv => exited_workerTo hne (h.joining i hi v hv)
  joined := fun hj v => exited_workerTo hne (h.joined hj v)
  announced := h.announced
  empty := by
    intro v hv
    change Function.update s.worker w p v = _ ∨
      Function.update s.worker w p v = _ at hv
    by_cases hvw : v = w
    · rw [hvw, Function.update_self] at hv
      exact hempty hv
    · rw [Function.update_of_ne hvw] at hv
      exact h.empty v hv
  woken := by
    intro hn hhead hall
    refine h.woken hn hhead fun v => ?_
    by_cases hvw : (Thread.worker v : Thread n κ) = .worker w
    · rw [hvw]
      exact ((hself (hvw ▸ hall v)).2).resolve_right hhead
    · exact hothers _ (hall v) hvw

/-- A worker moves and neither takes nor gives back the lock. -/
theorem Sync.workerStay (h : Sync s) (hne : s.worker w ≠ .exited)
    (hblocked : s.worker w ≠ .blocked)
    (hin : p.inside = true → (s.worker w).inside = true)
    (hempty : p = .testShutdown ∨ p = .wait → s.work_queue_head = none) :
    Sync (s.workerTo w p) := by
  have hnot : Thread.worker w ∉ s.mon.waiting () := by
    intro hw
    obtain ⟨v, hv, hb⟩ := h.waiting _ hw
    cases hv
    exact hblocked hb
  refine h.worker (m := s.mon) hne ?_ (fun t ht _ => ht)
    (fun hw => absurd hw hnot) hempty
  refine h.excl.move (t := .worker w) ?_ fun u hu => inside_workerTo hu
  intro ht
  rw [inside_workerTo_self] at ht
  exact hin ht

/-- A worker takes the lock, for the first time or back after a wait. -/
theorem Sync.workerEnter (h : Sync s) (hne : s.worker w ≠ .exited)
    (hfree : s.mon.owner = none) (hawake : .worker w ∉ s.mon.waiting ())
    (hempty : p ≠ .testShutdown ∧ p ≠ .wait) :
    Sync ((s.workerTo w p).withMon ⟨some (.worker w), s.mon.waiting⟩) := by
  refine h.worker hne ?_ (fun t ht _ => ht) (fun hw => absurd hw hawake) ?_
  · have hexcl := h.excl
    rw [hfree] at hexcl
    exact hexcl.acquire fun u hu => inside_workerTo hu
  · rintro (hp | hp)
    · exact absurd hp hempty.1
    · exact absurd hp hempty.2

theorem Sync.workerLeave (h : Sync s) (howns : s.mon.owner = some (.worker w))
    (hin : (s.worker w).inside = true) (hout : p.inside = false) :
    Sync ((s.workerTo w p).withMon ⟨none, s.mon.waiting⟩) := by
  have hnot := h.not_waiting (t := .worker w) hin
  refine h.worker ?_ ?_ (fun t ht _ => ht) (fun hw => absurd hw hnot) ?_
  · intro hexited
    rw [hexited] at hin
    cases hin
  · have hexcl := h.excl
    rw [howns] at hexcl
    refine hexcl.release ?_ fun u hu => inside_workerTo hu
    rw [inside_workerTo_self, hout]
    exact Bool.false_ne_true
  · rintro (rfl | rfl)
    · cases hout
    · cases hout

/-- The worker has seen an empty queue and still holds the lock. -/
theorem Sync.workerWait [DecidableEq κ] (h : Sync s) (hpc : s.worker w = .wait)
    (howns : s.mon.owner = some (.worker w)) :
    Sync ((s.workerTo w .blocked).withMon ⟨none, Function.update
      s.mon.waiting () (insert (.worker w) (s.mon.waiting ()))⟩) := by
  refine h.worker ?_ ?_ ?_ ?_ nofun
  · rw [hpc]
    nofun
  · have hexcl := h.excl
    rw [howns] at hexcl
    refine hexcl.release ?_ fun u hu => inside_workerTo hu
    rw [inside_workerTo_self]
    exact Bool.false_ne_true
  · intro t ht htw
    exact (Finset.mem_insert.mp ht).resolve_left htw
  · intro _
    exact ⟨rfl, .inr (h.empty w (.inr hpc))⟩

end Worker

/-! ## The destroyer moves -/

section Destroyer

variable {p : DestroyerPc}

theorem inside_destroyerTo {u : Thread n κ} (hu : u ≠ .destroyer)
    (h : (s.destroyerTo p).inside u = true) : s.inside u = true := by
  cases u with
  | worker w => exact h
  | adder k => exact h
  | destroyer => exact absurd rfl hu

theorem Sync.destroyer (h : Sync s)
    (hexcl : Excl m.owner fun t => (s.destroyerTo p).inside t = true)
    (hsub : m.waiting () ⊆ s.mon.waiting ())
    (hjoining : ∀ i, p = .join i → ∀ w : Fin n, w < i → s.worker w = .exited)
    (hjoined : p.joined = true → ∀ w, s.worker w = .exited)
    (hannounced : p.announced = true → s.shutdown = true) :
    Sync ((s.destroyerTo p).withMon m) where
  excl := hexcl
  waiting := fun t ht => h.waiting t (hsub ht)
  joining := hjoining
  joined := hjoined
  announced := hannounced
  empty := h.empty
  woken := fun hn hhead hall => h.woken hn hhead fun w => hsub (hall w)

theorem Sync.destroyerStay (h : Sync s)
    (hin : p.inside = true → s.destroyer.inside = true)
    (hjoining : ∀ i, p = .join i → ∀ w : Fin n, w < i → s.worker w = .exited)
    (hjoined : p.joined = true → ∀ w, s.worker w = .exited)
    (hannounced : p.announced = true → s.shutdown = true) :
    Sync (s.destroyerTo p) :=
  h.destroyer (m := s.mon)
    (h.excl.move (t := .destroyer) hin fun _ hu => inside_destroyerTo hu)
    (fun _ ht => ht) hjoining hjoined hannounced

/-- The lock is taken between setting the flag and the broadcast. -/
theorem Sync.destroyerLock (h : Sync s) (hpc : s.destroyer = .lock)
    (hfree : s.mon.owner = none) :
    Sync ((s.destroyerTo .broadcast).withMon
      ⟨some .destroyer, s.mon.waiting⟩) := by
  refine h.destroyer ?_ (fun t ht => ht) nofun nofun fun _ =>
    h.announced (by rw [hpc]; rfl)
  have hexcl := h.excl
  rw [hfree] at hexcl
  exact hexcl.acquire fun u hu => inside_destroyerTo hu

theorem Sync.destroyerUnlock (h : Sync s)
    (howns : s.mon.owner = some .destroyer) :
    Sync ((s.destroyerTo (.join 0)).withMon ⟨none, s.mon.waiting⟩) := by
  refine h.destroyer ?_ (fun t ht => ht) ?_ nofun nofun
  · have hexcl := h.excl
    rw [howns] at hexcl
    exact hexcl.release Bool.false_ne_true fun u hu => inside_destroyerTo hu
  · intro i hi w hw
    cases hi
    exact absurd hw (Nat.not_lt_zero w)

theorem Sync.destroyerJoin (h : Sync s) {i : Nat} (hpc : s.destroyer = .join i)
    (hi : i < n) (hexited : s.worker ⟨i, hi⟩ = .exited) :
    Sync (s.destroyerTo (.join (i + 1))) := by
  refine h.destroyerStay nofun ?_ nofun nofun
  intro j hj w hw
  cases hj
  by_cases hwi : (w : Nat) < i
  · exact h.joining i hpc w hwi
  · have heq : w = ⟨i, hi⟩ := Fin.ext (show (w : Nat) = i by omega)
    rw [heq, hexited]

theorem Sync.destroyerJoined (h : Sync s) {i : Nat}
    (hpc : s.destroyer = .join i) (hi : ¬ i < n) :
    Sync (s.destroyerTo .drain) := by
  refine h.destroyerStay nofun nofun ?_ nofun
  intro _ w
  exact h.joining i hpc w (by omega)

end Destroyer

/-! ## The queue changes

Whoever changes the queue is inside, or has joined all workers: no worker is
between its test of the queue and its wait. -/

theorem Sync.newHead (h : Sync s) (hmon : s'.mon = s.mon)
    (hworker : s'.worker = s.worker) (hadder : s'.adder = s.adder)
    (hdestroyer : s'.destroyer = s.destroyer)
    (hshutdown : s'.shutdown = s.shutdown)
    (hempty : ∀ w, s.worker w ≠ .testShutdown ∧ s.worker w ≠ .wait)
    (hwoken : 0 < n → (∀ w, .worker w ∈ s.mon.waiting ()) →
      ∃ k, s.adder k = .signal) : Sync s' := by
  have hsame : Sync { s' with
      work_queue_head := s.work_queue_head } :=
    h.congr hmon hworker hadder hdestroyer hshutdown rfl
  refine ⟨hsame.excl, hsame.waiting, hsame.joining, hsame.joined,
    hsame.announced, ?_, ?_⟩
  · intro w hw
    rw [hworker] at hw
    rcases hw with hw | hw
    · exact absurd hw (hempty w).1
    · exact absurd hw (hempty w).2
  · intro hn _ hall
    rw [hmon] at hall
    rw [hadder]
    exact hwoken hn hall

theorem Sync.nobody_tests (h : Sync s) (hin : s.inside t = true)
    (ht : ∀ w, t = .worker w →
      s.worker w ≠ .testShutdown ∧ s.worker w ≠ .wait) (w : Fin n) :
    s.worker w ≠ .testShutdown ∧ s.worker w ≠ .wait := by
  constructor
  · intro hw
    have heq : Thread.worker w = t :=
      h.only hin (by rw [State.inside, hw]; rfl)
    exact (ht w heq.symm).1 hw
  · intro hw
    have heq : Thread.worker w = t :=
      h.only hin (by rw [State.inside, hw]; rfl)
    exact (ht w heq.symm).2 hw

theorem Sync.takeHead {work : Addr} {head : Option Addr}
    {dequeued : List (Task τ)} (h : Sync s) (hpc : s.worker w = .dequeue) :
    Sync { s.workerTo w (.unlock work) with
      work_queue_head := head
      dequeued := dequeued } := by
  have hmoved : Sync (s.workerTo w (.unlock work)) :=
    h.workerStay (by rw [hpc]; nofun) (by rw [hpc]; nofun)
      (fun _ => by rw [hpc]; rfl) nofun
  have hin : (s.workerTo w (.unlock work)).inside (.worker w) = true := by
    rw [inside_workerTo_self]
    rfl
  refine hmoved.newHead rfl rfl rfl rfl rfl
    (hmoved.nobody_tests hin ?_) fun _ hall =>
      absurd (hall w) (hmoved.not_waiting hin)
  intro v hv
  cases hv
  change Function.update s.worker w _ w ≠ _ ∧
    Function.update s.worker w _ w ≠ _
  rw [Function.update_self]
  exact ⟨nofun, nofun⟩

/-- The workers have been joined, so the queue is nobody's business. -/
theorem Sync.freeHead {a : Addr} {head : Option Addr} {freed : List (Task τ)}
    (h : Sync s) (hpc : s.destroyer = .drain) :
    Sync { s.release a with
      work_queue_head := head
      freed := freed } := by
  have hexited := h.joined (by rw [hpc]; rfl)
  refine h.newHead rfl rfl rfl rfl rfl ?_ ?_
  · intro w
    rw [hexited w]
    exact ⟨nofun, nofun⟩
  · intro hn hall
    obtain ⟨w, -, hw⟩ := h.waiting _ (hall ⟨0, hn⟩)
    rw [hexited w] at hw
    cases hw

variable [DecidableEq κ]

/-! ## `thread_start` -/

theorem Sync.threadStart (h : Sync s) (hs : s.threadStart w = some s') :
    Sync s' := by
  cases threadStart_cases hs with
  | lock hpc hfree =>
      refine h.workerEnter (by rw [hpc]; nofun) hfree ?_ ⟨nofun, nofun⟩
      intro hw
      obtain ⟨v, hv, hb⟩ := h.waiting _ hw
      cases hv
      rw [hpc] at hb
      cases hb
  | testHead hpc =>
      refine h.workerStay (by rw [hpc]; nofun) (by rw [hpc]; nofun)
        (fun _ => by rw [hpc]; rfl) ?_
      split
      · next hnone => exact fun _ => hnone
      · nofun
  | testShutdown hpc =>
      exact h.workerStay (by rw [hpc]; nofun) (by rw [hpc]; nofun)
        (fun _ => by rw [hpc]; rfl) fun _ => h.empty w (.inl hpc)
  | wait hpc howns => exact h.workerWait hpc howns
  | blocked hpc hawake hfree =>
      exact h.workerEnter (by rw [hpc]; nofun) hfree hawake ⟨nofun, nofun⟩
  | ifShutdown hpc =>
      refine h.workerStay (by rw [hpc]; nofun) (by rw [hpc]; nofun)
        (fun _ => by rw [hpc]; rfl) ?_
      split <;> nofun
  | exitUnlock hpc howns =>
      exact h.workerLeave howns (by rw [hpc]; rfl) rfl
  | dequeue hpc hhead hnode => exact h.takeHead hpc
  | unlock hpc howns => exact h.workerLeave howns (by rw [hpc]; rfl) rfl
  | @run work node hpc hnode =>
      have hmoved : Sync (s.workerTo w (.free work)) :=
        h.workerStay (by rw [hpc]; nofun) (by rw [hpc]; nofun) nofun nofun
      exact hmoved.congr rfl rfl rfl rfl rfl rfl
  | free hpc =>
      have hmoved : Sync (s.workerTo w .lock) :=
        h.workerStay (by rw [hpc]; nofun) (by rw [hpc]; nofun) nofun nofun
      exact hmoved.congr rfl rfl rfl rfl rfl rfl

/-! ## An adder moves -/

section Adder

variable {p : AdderPc} {woken : Finset (Thread n κ)}

theorem inside_adderTo {u : Thread n κ} (hu : u ≠ .adder k)
    (h : (s.adderTo k p).inside u = true) : s.inside u = true := by
  cases u with
  | adder j =>
      have hj : j ≠ k := by
        intro heq
        exact hu (heq ▸ rfl)
      change (Function.update s.adder k p j).inside = true at h
      rwa [Function.update_of_ne hj] at h
  | worker v => exact h
  | destroyer => exact h

theorem inside_adderTo_self :
    (s.adderTo k p).inside (.adder k) = p.inside := by
  change (Function.update s.adder k p k).inside = p.inside
  rw [Function.update_self]

/-- An adder moves to `p`. If it has just signalled, some worker is awake. -/
theorem Sync.adder (h : Sync s)
    (hexcl : Excl m.owner fun t => (s.adderTo k p).inside t = true)
    (hsub : m.waiting () ⊆ s.mon.waiting ())
    (hsignal : s.adder k = .signal → 0 < n → ∃ w, .worker w ∉ m.waiting ()) :
    Sync ((s.adderTo k p).withMon m) where
  excl := hexcl
  waiting := fun t ht => h.waiting t (hsub ht)
  joining := h.joining
  joined := h.joined
  announced := h.announced
  empty := h.empty
  woken := by
    intro hn hhead hall
    obtain ⟨j, hj⟩ := h.woken hn hhead fun w => hsub (hall w)
    by_cases hjk : j = k
    · obtain ⟨w, hw⟩ := hsignal (hjk ▸ hj) hn
      exact absurd (hall w) hw
    · refine ⟨j, ?_⟩
      change Function.update s.adder k p j = _
      rw [Function.update_of_ne hjk, hj]

theorem Sync.adderStay (h : Sync s) (hne : s.adder k ≠ .signal)
    (hin : p.inside = true → (s.adder k).inside = true) :
    Sync (s.adderTo k p) := by
  refine h.adder (m := s.mon) ?_ (fun t ht => ht) fun hk => absurd hk hne
  refine h.excl.move (t := .adder k) ?_ fun u hu => inside_adderTo hu
  intro ht
  rw [inside_adderTo_self] at ht
  exact hin ht

theorem Sync.adderEnter (h : Sync s) (hne : s.adder k ≠ .signal)
    (hfree : s.mon.owner = none) :
    Sync ((s.adderTo k p).withMon ⟨some (.adder k), s.mon.waiting⟩) := by
  refine h.adder ?_ (fun t ht => ht) fun hk => absurd hk hne
  have hexcl := h.excl
  rw [hfree] at hexcl
  exact hexcl.acquire fun u hu => inside_adderTo hu

theorem Sync.adderLeave (h : Sync s) (hne : s.adder k ≠ .signal)
    (howns : s.mon.owner = some (.adder k)) (hout : p.inside = false) :
    Sync ((s.adderTo k p).withMon ⟨none, s.mon.waiting⟩) := by
  refine h.adder ?_ (fun t ht => ht) fun hk => absurd hk hne
  have hexcl := h.excl
  rw [howns] at hexcl
  refine hexcl.release ?_ fun u hu => inside_adderTo hu
  rw [inside_adderTo_self, hout]
  exact Bool.false_ne_true

/-- A signal wakes a worker, if all of them were waiting. -/
theorem Sync.adderSignal (h : Sync s) (hpc : s.adder k = .signal)
    (hsub : woken ⊆ s.mon.waiting ())
    (hsome : woken = ∅ → s.mon.waiting () = ∅) :
    Sync ((s.adderTo k .unlock).withMon ⟨s.mon.owner,
      Function.update s.mon.waiting () (s.mon.waiting () \ woken)⟩) := by
  refine h.adder ?_ (fun t ht => (Finset.mem_sdiff.mp ht).1) ?_
  · refine h.excl.move (t := .adder k) ?_ fun u hu => inside_adderTo hu
    intro _
    rw [State.inside, hpc]
    rfl
  · intro _ hn
    rcases woken.eq_empty_or_nonempty with hnone | ⟨t, ht⟩
    · refine ⟨⟨0, hn⟩, fun hw => ?_⟩
      have hw := (Finset.mem_sdiff.mp hw).1
      rw [hsome hnone] at hw
      cases hw
    · obtain ⟨w, rfl, -⟩ := h.waiting t (hsub ht)
      exact ⟨w, fun hw => (Finset.mem_sdiff.mp hw).2 ht⟩

/-- An adder changes the queue and goes on to signal. -/
theorem Sync.enqueue (h : Sync s) (hin : (s.adder k).inside = true)
    (hne : s.adder k ≠ .signal) (hmon : s'.mon = s.mon)
    (hworker : s'.worker = s.worker)
    (hadder : s'.adder = Function.update s.adder k .signal)
    (hdestroyer : s'.destroyer = s.destroyer)
    (hshutdown : s'.shutdown = s.shutdown) : Sync s' := by
  have hmoved : Sync (s.adderTo k .signal) := h.adderStay hne fun _ => hin
  refine hmoved.newHead hmon hworker hadder hdestroyer hshutdown ?_ ?_
  · exact hmoved.nobody_tests (t := .adder k)
      (by rw [inside_adderTo_self]; rfl) nofun
  · intro _ _
    exact ⟨k, Function.update_self k _ s.adder⟩

end Adder

/-! ## `add_task_2_tpool` -/

theorem Sync.call {routine : τ} {new_work : Addr} (h : Sync s)
    (hs : s.call k routine new_work = some s') : Sync s' := by
  obtain ⟨⟨hidle, -⟩, ⟨⟩⟩ := Option.ite_none_right_eq_some.mp hs
  have hmoved : Sync (s.adderTo k (.lock new_work)) :=
    h.adderStay (by rw [hidle]; nofun) nofun
  exact hmoved.congr rfl rfl rfl rfl rfl rfl

theorem Sync.addTask2Tpool {woken : Finset (Thread n κ)} (h : Sync s)
    (hs : s.addTask2Tpool k woken = some s') : Sync s' := by
  cases addTask2Tpool_cases hs with
  | lock hpc hfree => exact h.adderEnter (by rw [hpc]; nofun) hfree
  | empty hpc hhead =>
      exact h.adderStay (by rw [hpc]; nofun) fun _ => by rw [hpc]; rfl
  | first hpc hhead =>
      exact h.adderStay (by rw [hpc]; nofun) fun _ => by rw [hpc]; rfl
  | setHead hpc hnode =>
      exact h.enqueue (by rw [hpc]; rfl) (by rw [hpc]; nofun) rfl rfl rfl rfl
        rfl
  | last hpc hlast hnext =>
      exact h.adderStay (by rw [hpc]; nofun) fun _ => by rw [hpc]; rfl
  | walk hpc hlast hnext =>
      exact h.adderStay (by rw [hpc]; nofun) fun _ => by rw [hpc]; rfl
  | link hpc hnode hlast =>
      exact h.enqueue (by rw [hpc]; rfl) (by rw [hpc]; nofun) rfl rfl rfl rfl
        rfl
  | signal hpc hsub hsome => exact h.adderSignal hpc hsub hsome
  | unlock hpc howns => exact h.adderLeave (by rw [hpc]; nofun) howns rfl

/-! ## `destroy_tpool` -/

theorem Sync.destroyTpool (h : Sync s) (hs : s.destroyTpool = some s') :
    Sync s' := by
  cases destroyTpool_cases hs with
  | call hpc => exact h.destroyerStay nofun nofun nofun nofun
  | test hpc =>
      split
      · exact h.destroyerStay nofun nofun nofun nofun
      · exact h.destroyerStay nofun nofun nofun nofun
  | setShutdown hpc =>
      have hset : Sync { s with
          shutdown := true } :=
        ⟨h.excl, h.waiting, h.joining, h.joined, fun _ => rfl, h.empty,
          h.woken⟩
      exact hset.destroyerStay nofun nofun nofun fun _ => rfl
  | lock hpc hfree => exact h.destroyerLock hpc hfree
  | broadcast hpc =>
      refine h.destroyer ?_ ?_ nofun nofun nofun
      · refine h.excl.move (t := .destroyer) ?_ fun u hu =>
          inside_destroyerTo hu
        intro _
        rw [State.inside, hpc]
        rfl
      · intro t ht
        cases ht
  | unlock hpc howns => exact h.destroyerUnlock howns
  | join hpc hi hexited => exact h.destroyerJoin hpc hi hexited
  | joined hpc hi => exact h.destroyerJoined hpc hi
  | drained hpc hhead =>
      exact h.destroyerStay nofun nofun
        (fun _ => h.joined (by rw [hpc]; rfl)) nofun
  | drain hpc hhead hnode => exact h.freeHead hpc
  | free hpc =>
      have hmoved : Sync (s.destroyerTo .done) :=
        h.destroyerStay nofun nofun nofun nofun
      exact hmoved.congr rfl rfl rfl rfl rfl rfl

theorem Sync.spurious (h : Sync s)
    (hs : (s.mon.wake () t).map s.withMon = some s') : Sync s' := by
  obtain ⟨m, hm, rfl⟩ := Option.map_eq_some_iff.mp hs
  obtain ⟨-, rfl⟩ := Monitor.wake_eq_some.mp hm
  have hsub : ∀ u ∈ (s.mon.waiting ()).erase t, u ∈ s.mon.waiting () :=
    fun u hu => Finset.mem_of_mem_erase hu
  exact ⟨h.excl, fun u hu => h.waiting u (hsub u hu), h.joining, h.joined,
    h.announced, h.empty,
    fun hn hhead hall => h.woken hn hhead fun w => hsub _ (hall w)⟩

theorem Sync.step {a : Act n κ τ} (h : Sync s) (hs : step s a = some s') :
    Sync s' := by
  rw [step.eq_def, Option.ite_none_left_eq_some] at hs
  obtain ⟨-, hs⟩ := hs
  cases a with
  | worker w => exact h.threadStart hs
  | call k routine new_work => exact h.call hs
  | adder k woken => exact h.addTask2Tpool hs
  | destroyer => exact h.destroyTpool hs
  | spurious t => exact h.spurious hs

theorem exec_sync {acts : List (Act n κ τ)}
    (hrun : exec step init acts = some s) : Sync s :=
  exec_inv (fun _ _ _ h hs => h.step hs) sync_init hrun

end LearningLinux.ThreadPool
