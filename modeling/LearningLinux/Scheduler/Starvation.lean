import LearningLinux.Scheduler.Shares

/-!
# The table of the `io/cursor` kernel

This kernel has four tasks, but `kernel_main` gives ticks and priorities to
three: the terminal was put in front of the others, and the assignments still
go to the entries 0, 1 and 2. The last task keeps the priority 0 of the
zero-initialised table, and is never picked.
-/

namespace LearningLinux.Scheduler

open LearningLinux.Lib

abbrev NR_TASKS : Nat := 4

instance : NeZero NR_TASKS := ⟨by decide⟩

/-- `proc_table[p].ticks = proc_table[p].priority = v` -/
def setShare (table : Fin NR_TASKS → Process) (p : Fin NR_TASKS) (v : Int) :
    Fin NR_TASKS → Process :=
  Function.update table p ⟨v, v⟩

/-- What `kernel_main` leaves of the scheduler's variables. -/
def kernelMain : Kernel NR_TASKS where
  proc_table :=
    setShare (setShare (setShare (fun _ => ⟨0, 0⟩) 0 15) 1 5) 2 3
  p_proc_ready := 0
  refills := 0

/-! ## Refills -/

variable {n : Nat}

/-- The kernel after `m` interrupts that are not nested. -/
def after (k : Kernel n) (m : Nat) : Option (Kernel n) :=
  exec clockHandler k (List.replicate m 0)

/-- The interrupt number `m` sets the counters back. -/
def RefillAt (k : Kernel n) (m : Nat) : Prop :=
  ∃ m' k₁ k₂, m = m' + 1 ∧ after k m' = some k₁ ∧ after k m = some k₂ ∧
    k₂.refills = k₁.refills + 1

/-- `p` is `p_proc_ready` after `m` interrupts. -/
def ReadyAt (k : Kernel n) (m : Nat) (p : Fin n) : Prop :=
  ∃ k', after k m = some k' ∧ k'.p_proc_ready = p

/-- In the first `N` interrupts, every process gets ready between a refill and
the next one. -/
def NoneStarved (k : Kernel n) (N : Nat) : Prop :=
  ∀ a b, a < b → b ≤ N → RefillAt k a → RefillAt k b →
    (∀ m, a < m → m < b → ¬ RefillAt k m) →
    ∀ p, ∃ m, a ≤ m ∧ m < b ∧ ReadyAt k m p

variable {prio : Fin n → Int} {order : List (Fin n)} {k : Kernel n}

theorem Starts.after (h : Starts prio k) (horder : IsOrder prio order)
    (m : Nat) : ∃ k', after k m = some k' ∧
      At prio order k' (m % (turns prio order).length) ∧
      k'.refills = k.refills + m / (turns prio order).length := by
  obtain ⟨k', hk', hat, hrefills⟩ := (h.at horder).run (List.replicate m 0)
    fun _ hr => List.eq_of_mem_replicate hr
  rw [List.length_replicate, Nat.zero_add] at hat hrefills
  exact ⟨k', hk', hat, hrefills⟩

theorem Starts.refillAt_iff (h : Starts prio k) (horder : IsOrder prio order)
    (m : Nat) : RefillAt k m ↔
      ∃ m', m = m' + 1 ∧ (m' + 1) / (turns prio order).length =
        m' / (turns prio order).length + 1 := by
  constructor
  · rintro ⟨m', k₁, k₂, rfl, h₁, h₂, hrefills⟩
    obtain ⟨k₁', hk₁, -, hr₁⟩ := h.after horder m'
    obtain ⟨k₂', hk₂, -, hr₂⟩ := h.after horder (m' + 1)
    rw [h₁] at hk₁
    rw [h₂] at hk₂
    cases hk₁
    cases hk₂
    exact ⟨m', rfl, by omega⟩
  · rintro ⟨m', rfl, hdiv⟩
    obtain ⟨k₁, hk₁, -, hr₁⟩ := h.after horder m'
    obtain ⟨k₂, hk₂, -, hr₂⟩ := h.after horder (m' + 1)
    exact ⟨m', k₁, k₂, rfl, hk₁, hk₂, by omega⟩

/-- A process without a positive priority is never ready. -/
theorem Starts.pos_of_readyAt (h : Starts prio k) (horder : IsOrder prio order)
    {m : Nat} {p : Fin n} (hp : ReadyAt k m p) : 0 < prio p := by
  obtain ⟨k', hk', rfl⟩ := hp
  obtain ⟨k'', hk'', hat, -⟩ := h.after horder m
  rw [hk'] at hk''
  cases hk''
  have hmem := List.mem_of_getElem? hat.turn
  obtain ⟨q, hq, hrep⟩ := List.mem_flatMap.mp hmem
  rw [List.eq_of_mem_replicate hrep]
  exact (horder.mem q).mp hq

/-! ## The fourth task -/

theorem kernelMain_starts : Starts kernelMain.priorityOf kernelMain := by
  refine ⟨fun _ => rfl, by decide, ?_, by decide⟩
  unfold FirstGreatest
  decide

theorem kernelMain_order : IsOrder kernelMain.priorityOf [0, 1, 2] := by
  refine ⟨?_, by decide⟩
  unfold ServedBefore
  decide

theorem kernelMain_turns :
    (turns kernelMain.priorityOf [0, 1, 2]).length = 23 := by
  decide

theorem kernelMain_refillAt (m : Nat) :
    RefillAt kernelMain m ↔ 0 < m ∧ m % 23 = 0 := by
  rw [kernelMain_starts.refillAt_iff kernelMain_order, kernelMain_turns]
  constructor
  · rintro ⟨m', rfl, hdiv⟩
    omega
  · intro ⟨hpos, hmod⟩
    exact ⟨m - 1, by omega, by omega⟩

theorem fourth_never_ready (m : Nat) : ¬ ReadyAt kernelMain m 3 := by
  intro hready
  have hpos := kernelMain_starts.pos_of_readyAt kernelMain_order hready
  exact absurd hpos (by decide)

theorem no_refill_between {m : Nat} (hlo : 23 < m) (hhi : m < 46) :
    ¬ RefillAt kernelMain m := by
  rw [kernelMain_refillAt]
  omega

theorem starved_of_le {N : Nat} (hN : 46 ≤ N) : ¬ NoneStarved kernelMain N := by
  intro h
  obtain ⟨m, -, -, hready⟩ := h 23 46 (by decide) hN
    ((kernelMain_refillAt 23).mpr (by decide))
    ((kernelMain_refillAt 46).mpr (by decide))
    (fun _ hlo hhi => no_refill_between hlo hhi) 3
  exact fourth_never_ready m hready

/-- A run of any length goes through, and every task gets ready between any two
of its refills as long as it has not come to the second one. -/
theorem none_starved_iff (N : Nat) :
    (∃ k, after kernelMain N = some k) ∧
      (NoneStarved kernelMain N ↔ N < 46) := by
  constructor
  · obtain ⟨k, hk, -⟩ := kernelMain_starts.after kernelMain_order N
    exact ⟨k, hk⟩
  · constructor
    · intro h
      by_contra hlong
      exact starved_of_le (not_lt.mp hlong) h
    · intro hshort a b hab hb ha hb'
      rw [kernelMain_refillAt] at ha hb'
      omega

/-- The refills at the interrupts 23 and 46, and between them no turn for the
fourth task. -/
theorem fourth_starved : RefillAt kernelMain 23 ∧ RefillAt kernelMain 46 ∧
    (∀ m, 23 < m → m < 46 → ¬ RefillAt kernelMain m) ∧
    (∀ m, ¬ ReadyAt kernelMain m 3) ∧ ¬ NoneStarved kernelMain 46 :=
  ⟨(kernelMain_refillAt 23).mpr (by decide),
    (kernelMain_refillAt 46).mpr (by decide),
    fun _ hlo hhi => no_refill_between hlo hhi, fourth_never_ready,
    starved_of_le (le_refl _)⟩

end LearningLinux.Scheduler
