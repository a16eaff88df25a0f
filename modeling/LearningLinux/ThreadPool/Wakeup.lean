import LearningLinux.ThreadPool.Sync
import Mathlib.Algebra.GroupWithZero.Nat

/-!
# The pool never sleeps on work

A queue with work in it never meets a pool whose workers are all asleep, and
after the broadcast of `destroy_tpool` no worker is asleep at all.

The flag is written without the lock, so a worker may still go to sleep after
it has been set. But `destroy_tpool` takes the lock before it broadcasts, and
while it holds the lock no worker stands between its test of the flag and its
wait. What the broadcast leaves behind, `Awake`, is kept by every later step.
-/

namespace LearningLinux.ThreadPool

open LearningLinux.Lib

variable {n : Nat} {κ τ : Type*} {s s' : State n κ τ}
  {w : Fin n} {k : κ} {t : Thread n κ} {woken : Finset (Thread n κ)}

/-! ## Sleep -/

/-- Every worker is blocked and nothing has woken it. -/
def AllAsleep (s : State n κ τ) : Prop :=
  ∀ w, .worker w ∈ s.mon.waiting ()

/-- There is work, the lock is free and nobody is about to signal, but every
worker is asleep. -/
def Stuck (s : State n κ τ) : Prop :=
  s.work_queue_head ≠ none ∧ s.mon.owner = none ∧
    (∀ k, s.adder k ≠ .signal) ∧ AllAsleep s

theorem Sync.not_stuck (h : Sync s) (hn : 0 < n) : ¬ Stuck s := by
  intro ⟨hhead, _, hadders, hall⟩
  obtain ⟨k, hk⟩ := h.woken hn hhead hall
  exact hadders k hk

/-! ## After the broadcast -/

/-- Nobody waits, and nobody will: the flag is up and no worker has got past
its test of it. -/
structure Awake (s : State n κ τ) : Prop where
  shutdown : s.shutdown = true
  waiting : s.mon.waiting () = ∅
  testing : ∀ w, s.worker w ≠ .wait

theorem Awake.congr (h : Awake s) (hshutdown : s'.shutdown = s.shutdown)
    (hwaiting : s'.mon.waiting () = s.mon.waiting ())
    (hworker : ∀ w, s'.worker w = .wait → s.worker w = .wait) : Awake s' where
  shutdown := hshutdown.trans h.shutdown
  waiting := hwaiting.trans h.waiting
  testing := fun w hw => h.testing w (hworker w hw)

theorem Awake.workerTo (h : Awake s) {p : WorkerPc}
    (hshutdown : s'.shutdown = s.shutdown)
    (hwaiting : s'.mon.waiting = s.mon.waiting)
    (hworker : s'.worker = Function.update s.worker w p) (hp : p ≠ .wait) :
    Awake s' := by
  refine h.congr hshutdown (by rw [hwaiting]) fun v hv => ?_
  rw [hworker] at hv
  by_cases hvw : v = w
  · rw [hvw, Function.update_self] at hv
    exact absurd hv hp
  · rwa [Function.update_of_ne hvw] at hv

variable [DecidableEq κ]

theorem Awake.threadStart (h : Awake s) (hs : s.threadStart w = some s') :
    Awake s' := by
  cases threadStart_cases hs with
  | wait hpc howns => exact absurd hpc (h.testing w)
  | testHead hpc =>
      refine h.workerTo rfl rfl rfl ?_
      split <;> nofun
  | testShutdown hpc =>
      rw [if_pos h.shutdown]
      exact h.workerTo rfl rfl rfl nofun
  | ifShutdown hpc =>
      rw [if_pos h.shutdown]
      exact h.workerTo rfl rfl rfl nofun
  | _ => exact h.workerTo rfl rfl rfl nofun

theorem Awake.addTask2Tpool (h : Awake s)
    (hs : s.addTask2Tpool k woken = some s') : Awake s' := by
  cases addTask2Tpool_cases hs with
  | signal hpc hsub hsome =>
      refine h.congr rfl ?_ fun _ hw => hw
      change s.mon.waiting () \ woken = s.mon.waiting ()
      rw [h.waiting, Finset.empty_sdiff]
  | _ => exact h.congr rfl rfl fun _ hw => hw

theorem Awake.destroyTpool (h : Awake s) (hs : s.destroyTpool = some s') :
    Awake s' := by
  cases destroyTpool_cases hs with
  | setShutdown hpc => exact h.congr h.shutdown.symm rfl fun _ hw => hw
  | broadcast hpc => exact h.congr rfl h.waiting.symm fun _ hw => hw
  | _ => exact h.congr rfl rfl fun _ hw => hw

theorem Awake.step {a : Act n κ τ} (h : Awake s) (hs : step s a = some s') :
    Awake s' := by
  rw [step.eq_def, Option.ite_none_left_eq_some] at hs
  obtain ⟨-, hs⟩ := hs
  cases a with
  | worker w => exact h.threadStart hs
  | call k routine new_work =>
      obtain ⟨-, ⟨⟩⟩ := Option.ite_none_right_eq_some.mp hs
      exact h.congr rfl rfl fun _ hw => hw
  | adder k woken => exact h.addTask2Tpool hs
  | destroyer => exact h.destroyTpool hs
  | spurious t =>
      obtain ⟨m, hm, rfl⟩ := Option.map_eq_some_iff.mp hs
      obtain ⟨hmem, -⟩ := Monitor.wake_eq_some.mp hm
      rw [h.waiting] at hmem
      cases hmem

/-- The destroyer has the lock when it broadcasts. -/
theorem Sync.broadcast (h : Sync s) (hpc : s.destroyer = .broadcast)
    (hs : ThreadPool.step s .destroyer = some s') : Awake s' := by
  rw [step.eq_def, Option.ite_none_left_eq_some] at hs
  obtain ⟨-, hs⟩ := hs
  simp only [State.destroyTpool, hpc] at hs
  cases hs
  have hin : s.inside .destroyer = true := by rw [State.inside, hpc]; rfl
  exact ⟨h.announced (by rw [hpc]; rfl), rfl,
    fun w => (h.nobody_tests hin (by simp) w).2⟩

theorem exec_awake {acts : List (Act n κ τ)} (h : Awake s)
    (hrun : exec step s acts = some s') : Awake s' :=
  exec_inv (fun _ _ _ h hs => h.step hs) h hrun

/-! ## Whole runs -/

theorem no_lost_wakeup (hn : 0 < n) {acts acts' : List (Act n κ τ)}
    (hrun : exec step init acts = some s) :
    ¬ Stuck s ∧ (s.destroyer = .broadcast →
      exec step s (.destroyer :: acts') = some s' →
      ∀ w, .worker w ∉ s'.mon.waiting ()) := by
  have hsync := exec_sync hrun
  refine ⟨hsync.not_stuck hn, ?_⟩
  intro hpc hrun' w hw
  obtain ⟨u, hu, hrun'⟩ := exec_cons.mp hrun'
  have hawake := exec_awake (hsync.broadcast hpc hu) hrun'
  rw [hawake.waiting] at hw
  cases hw

local instance neZero_one : NeZero 1 := ⟨by decide⟩

/-- One worker goes to sleep, and then the pool is destroyed. -/
def sleepThenDestroy : List (Act 1 Unit Unit) :=
  List.replicate 4 (Act.worker 0) ++ List.replicate 4 Act.destroyer

theorem no_lost_wakeup_one : ∃ s s' : State 1 Unit Unit,
    exec step init sleepThenDestroy = some s ∧
      AllAsleep s ∧ ¬ Stuck s ∧ s.destroyer = .broadcast ∧
      exec step s [.destroyer, .destroyer] = some s' ∧
      ∀ w, .worker w ∉ s'.mon.waiting () := by
  have hrun : ((exec step init sleepThenDestroy).bind fun s =>
      (exec step s [.destroyer, .destroyer]).map fun _ =>
        (s.destroyer, s.mon.waiting ())) =
      some (.broadcast, {.worker 0}) := by decide +kernel
  obtain ⟨s, hs, hrest⟩ := Option.bind_eq_some_iff.mp hrun
  obtain ⟨s', hs', hres⟩ := Option.map_eq_some_iff.mp hrest
  simp only [Prod.mk.injEq] at hres
  obtain ⟨hnot, hafter⟩ := @no_lost_wakeup 1 Unit Unit s s' _ (by decide)
    sleepThenDestroy [.destroyer] hs
  refine ⟨s, s', hs, ?_, hnot, hres.1, hs', hafter hres.1 hs'⟩
  intro w
  rw [hres.2, Subsingleton.elim w 0]
  exact Finset.mem_singleton_self _

end LearningLinux.ThreadPool
