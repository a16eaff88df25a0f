import LearningLinux.Lib.Threads
import LearningLinux.Scull.Ioctl

/-!
# sculluid and scullwuid

Both devices belong to the user who opened them first, until the last file is
closed. `scull_u_open` refuses the others and `scull_w_open` lets them wait.
The sections under the spin lock are steps; `wait_event_interruptible` tests
`scull_w_available` without the lock, and so a waiter that was let through
tests again under the lock.

With each open file stand the credentials that it was opened with. The count
of open files is an integer of any size here and an `int` in the driver; while
there are less than `2 ^ 31` of them it is the same (`counts_int`).
-/

namespace LearningLinux.Scull

open LearningLinux.Lib

/-! ## The count and the owner -/

/-- `current_uid`, `current_euid` and `capable(CAP_DAC_OVERRIDE)`. -/
structure Cred where
  uid : UInt32
  euid : UInt32
  dacOverride : Bool
deriving DecidableEq, Repr

/-- `files` has who opened each file that is open. -/
structure Owned where
  count : Int
  owner : UInt32
  files : List Cred

def Owned.init : Owned := ⟨0, 0, []⟩

/-- `scull_w_available`. -/
def Owned.available (s : Owned) (c : Cred) : Bool :=
  s.count = 0 || s.owner = c.uid || s.owner = c.euid || c.dacOverride

/-- The end of a section that opens the device. -/
def Owned.grab (s : Owned) (c : Cred) : Owned :=
  ⟨s.count + 1, if s.count = 0 then c.uid else s.owner, s.files ++ [c]⟩

/-- The section of `scull_u_release` and of `scull_w_release`. -/
def Owned.release (s : Owned) (i : Nat) : Owned :=
  ⟨s.count - 1, s.owner, s.files.eraseIdx i⟩

/-- The section of `scull_u_open`; `none` is `-EBUSY`. -/
def scullUOpen (s : Owned) (c : Cred) : Option Owned :=
  if s.count ≠ 0 ∧ s.owner ≠ c.uid ∧ s.owner ≠ c.euid ∧ ¬ c.dacOverride then
    none
  else some (s.grab c)

/-- The user is the owner, or may override. -/
def Cred.May (c : Cred) (owner : UInt32) : Prop :=
  c.uid = owner ∨ c.euid = owner ∨ c.dacOverride = true

/-- The count is that of the open files, and whoever opened one of them was
allowed to by the present owner. -/
structure Owned.Respected (s : Owned) : Prop where
  count : s.count = s.files.length
  may : ∀ c ∈ s.files, c.May s.owner

/-- The owner changes with the first open only. -/
def OwnerKept (s s' : Owned) : Prop :=
  s'.owner ≠ s.owner → s.count = 0 ∧ s'.count = 1

variable {s s' : Owned} {c : Cred}

theorem Owned.respected_init : Owned.init.Respected :=
  ⟨rfl, fun _ hc => absurd hc List.not_mem_nil⟩

theorem OwnerKept.refl (s : Owned) : OwnerKept s s := fun hne => absurd rfl hne

theorem available_iff : s.available c = true ↔ s.count = 0 ∨ c.May s.owner := by
  have huid : c.uid = s.owner ↔ s.owner = c.uid := eq_comm
  have heuid : c.euid = s.owner ↔ s.owner = c.euid := eq_comm
  simp only [Owned.available, Cred.May, Bool.or_eq_true, decide_eq_true_eq,
    or_assoc, huid, heuid]

/-- The two devices ask the same. -/
theorem scullUOpen_eq : scullUOpen s c =
    if s.available c then some (s.grab c) else none := by
  rw [scullUOpen, ← ite_not]
  refine if_congr ?_ rfl rfl
  simp only [Owned.available, Bool.or_eq_true, decide_eq_true_eq]
  tauto

theorem Owned.Respected.files_nil (h : s.Respected) (hcount : s.count = 0) :
    s.files = [] := by
  have hlen := h.count
  rw [hcount] at hlen
  exact List.length_eq_zero_iff.mp (by omega)

theorem Owned.Respected.grab (h : s.Respected) (hfree : s.available c = true) :
    (s.grab c).Respected ∧ OwnerKept s (s.grab c) := by
  have hcount : s.count + 1 = ((s.files ++ [c]).length : Int) := by
    rw [List.length_append, h.count]
    rfl
  by_cases hzero : s.count = 0
  · have howner : (s.grab c).owner = c.uid := if_pos hzero
    refine ⟨⟨hcount, fun d hd => ?_⟩, fun _ => ⟨hzero, ?_⟩⟩
    · change d ∈ s.files ++ [c] at hd
      rw [h.files_nil hzero, List.nil_append, List.mem_singleton] at hd
      rw [hd, howner]
      exact Or.inl rfl
    · show s.count + 1 = 1
      rw [hzero]
      rfl
  · have howner : (s.grab c).owner = s.owner := if_neg hzero
    refine ⟨⟨hcount, fun d hd => ?_⟩, fun hne => absurd howner hne⟩
    rw [howner]
    rcases List.mem_append.mp hd with hold | hnew
    · exact h.may d hold
    · rw [List.mem_singleton.mp hnew]
      exact (available_iff.mp hfree).resolve_left hzero

theorem Owned.Respected.release (h : s.Respected) {i : Nat}
    (hi : i < s.files.length) :
    (s.release i).Respected ∧ OwnerKept s (s.release i) := by
  refine ⟨⟨?_, fun d hd => ?_⟩, fun hne => absurd rfl hne⟩
  · show s.count - 1 = (s.files.eraseIdx i).length
    rw [h.count, List.length_eraseIdx_of_lt hi]
    omega
  · exact h.may d (List.mem_of_mem_eraseIdx hd)

/-! ## sculluid -/

inductive UAct where
  | opens (c : Cred)
  | release (i : Nat)

def Owned.stepU (s : Owned) : UAct → Option Owned
  | .opens c => some ((scullUOpen s c).getD s)
  | .release i => if i < s.files.length then some (s.release i) else none

theorem Owned.Respected.stepU (h : s.Respected) {a : UAct}
    (hs : s.stepU a = some s') : s'.Respected ∧ OwnerKept s s' := by
  cases a with
  | opens c =>
      rw [Owned.stepU, scullUOpen_eq] at hs
      split at hs
      · next hfree =>
          cases hs
          exact h.grab hfree
      · cases hs
        exact ⟨h, OwnerKept.refl s⟩
  | release i =>
      obtain ⟨hi, hs⟩ := Option.ite_none_right_eq_some.mp hs
      cases hs
      exact h.release hi

/-! ## scullwuid -/

variable {ι : Type*}

/-- Where a process is: outside; in `wait_event_interruptible`, about to test
or asleep; past it, about to take the lock; in `scull_w_release` after the
last file, about to wake the others. -/
inductive Phase where
  | outside
  | testing (c : Cred)
  | asleep (c : Cred)
  | passed (c : Cred)
  | waking
deriving DecidableEq, Repr

structure WDevice (ι : Type*) where
  owned : Owned
  phase : ι → Phase

inductive WAct (ι : Type*) where
  | opens (t : ι) (c : Cred) (nonblock : Bool)
  | test (t : ι) (signal : Bool)
  | wake (t : ι)
  | relock (t : ι)
  | release (t : ι) (i : Nat)
  | wakeUp (t : ι)

def WDevice.init : WDevice ι := ⟨Owned.init, fun _ => .outside⟩

/-- A sleeper tests again. -/
def Phase.woken : Phase → Phase
  | .asleep c => .testing c
  | p => p

variable [DecidableEq ι]

def WDevice.goto (s : WDevice ι) (t : ι) (p : Phase) : WDevice ι :=
  ⟨s.owned, Function.update s.phase t p⟩

/-- The section of `scull_w_open`. -/
def WDevice.enter (s : WDevice ι) (t : ι) (c : Cred) (nonblock : Bool) :
    WDevice ι :=
  if s.owned.available c then ⟨s.owned.grab c, (s.goto t .outside).phase⟩
  else if nonblock then s.goto t .outside -- -EAGAIN
  else s.goto t (.testing c)

def WDevice.step (s : WDevice ι) : WAct ι → Option (WDevice ι)
  | .opens t c nonblock =>
      match s.phase t with
      | .outside => some (s.enter t c nonblock)
      | _ => none
  | .test t signal =>
      match s.phase t with
      | .testing c =>
          if s.owned.available c then some (s.goto t (.passed c))
          else if signal then some (s.goto t .outside) -- -ERESTARTSYS
          else some (s.goto t (.asleep c))
      | _ => none
  | .wake t =>
      match s.phase t with
      | .asleep c => some (s.goto t (.testing c))
      | _ => none
  | .relock t =>
      match s.phase t with
      | .passed c => some (s.enter t c false)
      | _ => none
  | .release t i =>
      match s.phase t with
      | .outside =>
          if i < s.owned.files.length then
            let owned := s.owned.release i
            some ⟨owned, (s.goto t
              (if owned.count = 0 then .waking else .outside)).phase⟩
          else none
      | _ => none
  | .wakeUp t =>
      match s.phase t with
      | .waking =>
          some ⟨s.owned, fun u => ((s.goto t .outside).phase u).woken⟩
      | _ => none

variable {w w' : WDevice ι}

theorem Owned.Respected.enter (h : w.owned.Respected) (t : ι) (c : Cred)
    (nonblock : Bool) : (w.enter t c nonblock).owned.Respected ∧
      OwnerKept w.owned (w.enter t c nonblock).owned := by
  rw [WDevice.enter]
  split
  · next hfree => exact h.grab hfree
  split
  · exact ⟨h, OwnerKept.refl _⟩
  · exact ⟨h, OwnerKept.refl _⟩

/-- Only a section under the lock touches the count, and none trusts a test
made before it. -/
theorem Owned.Respected.stepW (h : w.owned.Respected) {a : WAct ι}
    (hs : w.step a = some w') :
    w'.owned.Respected ∧ OwnerKept w.owned w'.owned := by
  have hsame : w.owned.Respected ∧ OwnerKept w.owned w.owned :=
    ⟨h, OwnerKept.refl _⟩
  unfold WDevice.step at hs
  cases a with
  | opens t c nonblock =>
      dsimp only at hs
      split at hs
      · cases hs
        exact h.enter t c nonblock
      · cases hs
  | relock t =>
      dsimp only at hs
      split at hs
      · next c _ =>
          cases hs
          exact h.enter t c false
      · cases hs
  | release t i =>
      dsimp only at hs
      split at hs
      · obtain ⟨hi, hs⟩ := Option.ite_none_right_eq_some.mp hs
        cases hs
        exact h.release hi
      · cases hs
  | test t signal =>
      dsimp only at hs
      split at hs
      · split at hs
        · cases hs
          exact hsame
        split at hs
        · cases hs
          exact hsame
        · cases hs
          exact hsame
      · cases hs
  | wake t =>
      dsimp only at hs
      split at hs
      · cases hs
        exact hsame
      · cases hs
  | wakeUp t =>
      dsimp only at hs
      split at hs
      · cases hs
        exact hsame
      · cases hs

/-- In every state of every interleaving, and for every step from it: the count
is that of the open files, the owner changes with the first open only, and
each file was opened by somebody the present owner allows. -/
theorem ownership_respected :
    (∀ acts, Always Owned.stepU (fun s => s.Respected ∧
        ∀ a s', s.stepU a = some s' → OwnerKept s s') Owned.init acts) ∧
      ∀ acts : List (WAct ι), Always WDevice.step (fun s => s.owned.Respected ∧
        ∀ a s', s.step a = some s' → OwnerKept s.owned s'.owned)
          WDevice.init acts := by
  constructor
  · intro acts
    exact always_of_step (I := Owned.Respected)
      (fun _ h => ⟨h, fun _ _ hs => (h.stepU hs).2⟩)
      (fun _ _ _ h hs => (h.stepU hs).1) Owned.respected_init
  · intro acts
    exact always_of_step (I := fun s => s.owned.Respected)
      (fun _ h => ⟨h, fun _ _ hs => (h.stepW hs).2⟩)
      (fun _ _ _ h hs => (h.stepW hs).1) Owned.respected_init

theorem Owned.Respected.int (h : s.Respected)
    (hfew : s.files.length < 2 ^ 31) : intOf s.count = s.count := by
  rw [h.count]
  exact intOf_natCast hfew

/-- As long as less than `2 ^ 31` files are open, both counts keep to the values
of an `int`. -/
theorem counts_int :
    (∀ acts, Always Owned.stepU
        (fun s => s.files.length < 2 ^ 31 → intOf s.count = s.count)
        Owned.init acts) ∧
      ∀ acts : List (WAct ι), Always WDevice.step
        (fun s => s.owned.files.length < 2 ^ 31 →
          intOf s.owned.count = s.owned.count) WDevice.init acts := by
  constructor
  · intro acts
    exact always_of_step (I := Owned.Respected) (fun _ h => h.int)
      (fun _ _ _ h hs => (h.stepU hs).1) Owned.respected_init
  · intro acts
    exact always_of_step (I := fun s => s.owned.Respected) (fun _ h => h.int)
      (fun _ _ _ h hs => (h.stepW hs).1) Owned.respected_init

/-! User 2 waits for user 1, and then the device is user 2's. -/

example : (exec WDevice.step (WDevice.init : WDevice Nat)
    [ .opens 0 ⟨1, 1, false⟩ false, .opens 1 ⟨2, 2, false⟩ false,
      .test 1 false, .release 0 0, .wakeUp 0, .test 1 false, .relock 1 ]).map
      (fun s => (s.owned.count, s.owned.owner)) = some (1, 2) := by
  decide

end LearningLinux.Scull
