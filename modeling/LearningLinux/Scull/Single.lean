import Mathlib.Data.Fintype.Card
import LearningLinux.Lib.Threads
import LearningLinux.Scull.Ioctl

/-!
# scullsingle

`scull_s_open` decrements `scull_s_available` and has the device if that made
it zero; otherwise it puts the counter back, in a second step. Until then the
counter is too low, so it does not tell whether the device is free, and only
together with the opens that are about to fail does it count anything.

The counter is an integer of any size here and an `int` in the kernel. Those
opens are of different processes, so for less than `2 ^ 31` of these the two
are the same (`scull_s_available_int`). What `scull_s_open` does after the test
does not touch the counter.
-/

namespace LearningLinux.Scull

open LearningLinux.Lib

variable {ι : Type*}

/-- `inForce` has the process of each open that is in force, `failing` the
processes between the decrement and the increment of an open that fails. -/
structure Single (ι : Type*) where
  scull_s_available : Int
  inForce : List ι
  failing : List ι

inductive SingleAct (ι : Type*) where
  | decAndTest (t : ι)
  | inc (t : ι)
  | release (t : ι)

def Single.init : Single ι := ⟨1, [], []⟩

variable [DecidableEq ι]

/-- A process takes one step after the other, and releases what it has
opened. -/
def Single.step (s : Single ι) : SingleAct ι → Option (Single ι)
  | .decAndTest t =>
      if t ∈ s.failing then none
      else
        let available := s.scull_s_available - 1
        if available = 0 then some ⟨available, t :: s.inForce, s.failing⟩
        else some ⟨available, s.inForce, t :: s.failing⟩
  | .inc t =>
      if t ∈ s.failing then
        some ⟨s.scull_s_available + 1, s.inForce, s.failing.erase t⟩
      else none
  | .release t =>
      if t ∈ s.failing ∨ t ∉ s.inForce then none
      else some ⟨s.scull_s_available + 1, s.inForce.erase t, s.failing⟩

/-- The counter accounts for every open in force and every failing one. -/
structure Single.Exclusive (s : Single ι) : Prop where
  one : s.inForce.length ≤ 1
  available : s.scull_s_available = 1 - s.inForce.length - s.failing.length
  processes : s.failing.Nodup

variable {s s' : Single ι} {a : SingleAct ι} {t : ι}

omit [DecidableEq ι] in
/-- The test succeeds if and only if nothing is in force and nothing about to
fail. -/
theorem Single.Exclusive.free_iff (h : s.Exclusive) :
    s.scull_s_available - 1 = 0 ↔ s.inForce = [] ∧ s.failing = [] := by
  rw [h.available, ← List.length_eq_zero_iff, ← List.length_eq_zero_iff]
  omega

theorem Single.Exclusive.decAndTest (h : s.Exclusive)
    (hs : s.step (.decAndTest t) = some s') : s'.Exclusive := by
  rw [Single.step] at hs
  obtain ⟨hfresh, hs⟩ := Option.ite_none_left_eq_some.mp hs
  dsimp only at hs
  have havailable := h.available
  split at hs
  · next hzero =>
      cases hs
      obtain ⟨hforce, hfailing⟩ := h.free_iff.mp hzero
      refine ⟨?_, ?_, h.processes⟩
      · rw [hforce]
        exact Nat.le_refl 1
      · rw [hforce, hfailing, hzero]
        rfl
  · cases hs
    refine ⟨h.one, ?_, List.nodup_cons.mpr ⟨hfresh, h.processes⟩⟩
    show s.scull_s_available - 1 =
      1 - s.inForce.length - (t :: s.failing).length
    rw [List.length_cons]
    omega

theorem Single.Exclusive.inc (h : s.Exclusive)
    (hs : s.step (.inc t) = some s') : s'.Exclusive := by
  rw [Single.step] at hs
  obtain ⟨hmem, hs⟩ := Option.ite_none_right_eq_some.mp hs
  cases hs
  have hlen := List.length_erase_add_one hmem
  have havailable := h.available
  refine ⟨h.one, ?_, h.processes.erase t⟩
  show s.scull_s_available + 1 =
    1 - s.inForce.length - (s.failing.erase t).length
  omega

theorem Single.Exclusive.release (h : s.Exclusive)
    (hs : s.step (.release t) = some s') : s'.Exclusive := by
  rw [Single.step] at hs
  obtain ⟨hmem, hs⟩ := Option.ite_none_left_eq_some.mp hs
  rw [not_or, not_not] at hmem
  cases hs
  have hlen := List.length_erase_add_one hmem.2
  have havailable := h.available
  have hone := h.one
  refine ⟨?_, ?_, h.processes⟩
  · show (s.inForce.erase t).length ≤ 1
    omega
  · show s.scull_s_available + 1 =
      1 - (s.inForce.erase t).length - s.failing.length
    omega

theorem Single.Exclusive.step (h : s.Exclusive) (hs : s.step a = some s') :
    s'.Exclusive := by
  cases a with
  | decAndTest t => exact h.decAndTest hs
  | inc t => exact h.inc hs
  | release t => exact h.release hs

omit [DecidableEq ι] in
theorem Single.exclusive_init : (Single.init : Single ι).Exclusive :=
  ⟨Nat.zero_le 1, rfl, List.nodup_nil⟩

/-- In every state of every interleaving at most one open is in force, and the
counter is one less for each open in force and for each failing one. -/
theorem scullsingle_exclusive (acts : List (SingleAct ι)) :
    Always Single.step Single.Exclusive Single.init acts :=
  always_of_step (fun _ h => h) (fun _ _ _ h hs => h.step hs)
    Single.exclusive_init

omit [DecidableEq ι] in
/-- A process has at most one failing open. -/
theorem Single.Exclusive.int [Fintype ι] (h : s.Exclusive)
    (hcard : Fintype.card ι < 2 ^ 31) :
    intOf s.scull_s_available = s.scull_s_available := by
  have havailable := h.available
  have hone := h.one
  have hfailing := h.processes.length_le_card
  exact intOf_of_lt (by omega) (by omega)

/-- With less than `2 ^ 31` processes the counter keeps to the values of an
`int`. -/
theorem scull_s_available_int [Fintype ι] (hcard : Fintype.card ι < 2 ^ 31)
    (acts : List (SingleAct ι)) :
    Always Single.step
      (fun s => intOf s.scull_s_available = s.scull_s_available)
      Single.init acts :=
  always_of_step (fun _ h => Single.Exclusive.int h hcard)
    (fun _ _ _ h hs => h.step hs) Single.exclusive_init

/-! While an open is in force two others fail, one after the other. -/

example : (exec Single.step (Single.init : Single Nat)
    [.decAndTest 0, .decAndTest 1, .decAndTest 2, .inc 1]).map
      (fun s => (s.scull_s_available, s.inForce, s.failing)) =
    some (-1, [0], [2]) := by
  decide

/-! ## Refusals

An open that is refused for another open that is in force is refused rightly.
But the counter is also low for a refused open that has not put it back, and
this one may refuse others after the device has been released. -/

/-- The test refuses a process only if the device is open, and open by another
process. -/
def Single.RefusesBusy (s : Single ι) : SingleAct ι → Prop
  | .decAndTest t => ∀ s', s.step (.decAndTest t) = some s' →
      t ∈ s'.failing → ∃ u ∈ s.inForce, u ≠ t
  | _ => True

/-- At a test the counter is not held down by refused opens alone, and the
process has not got the device open itself. -/
def Single.Settled (s : Single ι) : SingleAct ι → Prop
  | .decAndTest t => (s.inForce = [] → s.failing = []) ∧ t ∉ s.inForce
  | _ => True

/-- The test refuses whenever something is in force or about to fail. -/
theorem Single.Exclusive.refused_iff (h : s.Exclusive)
    (hs : s.step (.decAndTest t) = some s') :
    t ∈ s'.failing ↔ ¬ (s.inForce = [] ∧ s.failing = []) := by
  rw [← h.free_iff]
  rw [Single.step] at hs
  obtain ⟨hfresh, hs⟩ := Option.ite_none_left_eq_some.mp hs
  dsimp only at hs
  split at hs
  · next hzero =>
      cases hs
      exact iff_of_false hfresh (not_not_intro hzero)
  · next hzero =>
      cases hs
      exact iff_of_true List.mem_cons_self hzero

theorem Single.Exclusive.refusesBusy_iff (h : s.Exclusive)
    (hs : s.step a = some s') : s.RefusesBusy a ↔ s.Settled a := by
  cases a with
  | decAndTest t =>
      have hone := h.one
      have hrefused := h.refused_iff hs
      constructor
      · intro hbusy
        have hother := fun hne => hbusy s' hs (hrefused.mpr hne)
        refine ⟨fun hforce => ?_, fun hmem => ?_⟩
        · by_contra hfailing
          obtain ⟨u, hu, -⟩ := hother fun hfree => hfailing hfree.2
          rw [hforce] at hu
          cases hu
        · obtain ⟨u, hu, hut⟩ := hother fun hfree => by
            rw [hfree.1] at hmem
            cases hmem
          -- two processes cannot have it
          obtain ⟨v, hv⟩ := List.length_eq_one_iff.mp
            (Nat.le_antisymm hone (List.length_pos_of_mem hu))
          rw [hv, List.mem_singleton] at hmem hu
          exact hut (hu.trans hmem.symm)
      · intro ⟨hquiet, hown⟩ s₁ hs₁ hmem
        cases hs.symm.trans hs₁
        cases hforce : s.inForce with
        | nil => exact absurd ⟨hforce, hquiet hforce⟩ (hrefused.mp hmem)
        | cons u us =>
            rw [hforce] at hown
            exact ⟨u, List.mem_cons_self, (List.ne_of_not_mem_cons hown).symm⟩
  | inc t => exact Iff.rfl
  | release t => exact Iff.rfl

/-- In a run every refusal is for the open of another process if and only if
no process tests while refused opens alone hold the counter down, or while it
has the device open itself. -/
theorem scullsingle_refuses_iff (acts : List (SingleAct ι)) :
    Along Single.step Single.RefusesBusy Single.init acts ↔
      Along Single.step Single.Settled Single.init acts :=
  along_congr (fun _ _ _ h hs => h.refusesBusy_iff hs)
    (fun _ _ _ h hs => h.step hs) Single.exclusive_init

/-- The first process opens, the second is refused and has not put the counter
back when the first releases: the third is refused although nothing is in
force. -/
theorem scullsingle_refuses_free : ∃ s s' : Single Nat,
    exec Single.step Single.init [.decAndTest 0, .decAndTest 1, .release 0] =
      some s ∧
    s.inForce = [] ∧ s.step (.decAndTest 2) = some s' ∧ 2 ∈ s'.failing ∧
    ¬ Along Single.step Single.RefusesBusy Single.init
      [.decAndTest 0, .decAndTest 1, .release 0, .decAndTest (2 : Nat)] := by
  refine ⟨_, _, rfl, rfl, rfl, by simp, fun h => ?_⟩
  obtain ⟨-, -, -, hbusy, -⟩ := h
  obtain ⟨u, hu, -⟩ := hbusy _ rfl (by simp)
  cases hu

end LearningLinux.Scull
