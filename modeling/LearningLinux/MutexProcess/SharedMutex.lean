import Mathlib.Data.Fintype.Defs
import Mathlib.Logic.Function.Basic
import LearningLinux.Lib.Threads

/-!
# `shared_mutex_init`

Any number of processes call `shared_mutex_init` with one name, and no object
of that name exists at first. The scheduler lets one of them make its next
system call, all of which succeed; `pthread_mutex_init` is no system call and
is not atomic, so that its beginning and its end are two steps.

`shared_mutex.h` warns that the first initialisation has to be run before
anything else is. The results say what that buys: as long as nobody looks for
the object between the check of the process that is going to create it and the
creation, one process initialises the mutex; and if nobody looks for it until
the initialisation is over, nobody gets a mutex that is not initialised.
-/

namespace LearningLinux.MutexProcess

open LearningLinux.Lib

/-- `sizeof(pthread_mutex_t)` -/
def mutexSize : Nat := 40

/-- Where a process is in `shared_mutex_init`: what it does next. -/
inductive Pc where
  /-- `shm_open(name, O_RDWR, 0660)` -/
  | check
  /-- `shm_open(name, O_RDWR|O_CREAT, 0660)` -/
  | create
  | ftruncate
  | mmap
  | mutexInit
  | mutexInitEnd
  /-- `mutex.ptr = mutex_ptr` and the return. -/
  | ret
  | returned
deriving DecidableEq, Repr

structure Proc where
  pc : Pc
  created : Bool
deriving DecidableEq, Repr

/-- The shared-memory object, with the processes that have begun and that have
completed `pthread_mutex_init` on it. -/
structure Shm (ι : Type*) where
  size : Nat
  begun : List ι
  done : List ι
deriving DecidableEq, Repr

structure State (ι : Type*) where
  shm : Option (Shm ι)
  proc : ι → Proc

variable {ι : Type*}

/-- Nobody has begun, and there is no such object. -/
def State.init : State ι := ⟨none, fun _ => ⟨.check, false⟩⟩

section Step

variable [DecidableEq ι]

def State.goto (s : State ι) (p : ι) (pc : Pc) : State ι :=
  { s with
    proc := Function.update s.proc p ⟨pc, (s.proc p).created⟩ }

def State.setShm (s : State ι) (shm : Shm ι) : State ι :=
  { s with
    shm := some shm }

/-- The open with `O_CREAT`, and `mutex.created = 1`. -/
def State.create (s : State ι) (p : ι) : State ι :=
  { shm := some (s.shm.getD ⟨0, [], []⟩)
    proc := Function.update s.proc p ⟨.ftruncate, true⟩ }

/-- The next step of `p`. The steps after the open are on an object that
exists. -/
def step (s : State ι) (p : ι) : Option (State ι) :=
  match (s.proc p).pc, s.shm with
  -- `errno == ENOENT`
  | .check, none => some (s.goto p .create)
  | .check, some _ => some (s.goto p .ftruncate)
  | .create, _ => some (s.create p)
  | .ftruncate, some shm =>
      some ((s.goto p .mmap).setShm ⟨mutexSize, shm.begun, shm.done⟩)
  | .mmap, some _ =>
      some (s.goto p (if (s.proc p).created then .mutexInit else .ret))
  | .mutexInit, some shm =>
      some ((s.goto p .mutexInitEnd).setShm
        ⟨shm.size, shm.begun ++ [p], shm.done⟩)
  | .mutexInitEnd, some shm =>
      some ((s.goto p .ret).setShm ⟨shm.size, shm.begun, shm.done ++ [p]⟩)
  | .ret, some _ => some (s.goto p .returned)
  | _, _ => none

end Step

/-! ## What is wanted -/

/-- One process has initialised the mutex, and it has finished. -/
def InitialisedOnce (s : State ι) : Prop :=
  ∃ q shm, s.shm = some shm ∧ shm.begun = [q] ∧ shm.done = [q]

/-- At most one process has begun to initialise the mutex. -/
def AtMostOnce (s : State ι) : Prop :=
  ∀ shm, s.shm = some shm → shm.begun.length ≤ 1

/-- All the calls that were made have returned, and some were. -/
def AllReturned (s : State ι) : Prop :=
  (∃ p, (s.proc p).pc = .returned) ∧
    ∀ p, (s.proc p).pc = .check ∨ (s.proc p).pc = .returned

/-- `p` has found no object, or has created one, and has not yet initialised
the mutex. -/
def Proc.Creating (p : Proc) : Prop :=
  p.pc = .create ∨ p.created = true ∧ p.pc ≠ .ret ∧ p.pc ≠ .returned

instance (p : Proc) : Decidable p.Creating :=
  inferInstanceAs (Decidable (_ ∨ _))

/-- Nobody looks for the object while another process is about to create
it. -/
def ChecksBeforeOrAfterCreation (s : State ι) (p : ι) : Prop :=
  (s.proc p).pc = .check → ∀ q, (s.proc q).pc ≠ .create

/-- Nobody looks for the object while another process is about to create it
or to initialise the mutex. -/
def ChecksBeforeOrAfterInit (s : State ι) (p : ι) : Prop :=
  (s.proc p).pc = .check → ∀ q, ¬ (s.proc q).Creating

section Decide

variable [Fintype ι] (s : State ι) (p : ι)

instance : Decidable (ChecksBeforeOrAfterCreation s p) :=
  inferInstanceAs (Decidable (_ → ∀ _, _))

instance : Decidable (ChecksBeforeOrAfterInit s p) :=
  inferInstanceAs (Decidable (_ → ∀ _, _))

end Decide

/-! ## The invariant -/

/-- `p` is the one that creates the object. -/
def Proc.Creator (p : Proc) : Prop := p.pc = .create ∨ p.created = true

/-- How far the initialisation of `q` has come. -/
def Matches (q : ι) (pc : Pc) (shm : Shm ι) : Prop :=
  match pc with
  | .ftruncate | .mmap | .mutexInit => shm.begun = [] ∧ shm.done = []
  | .mutexInitEnd => shm.begun = [q] ∧ shm.done = []
  | .ret | .returned => shm.begun = [q] ∧ shm.done = [q]
  | .check | .create => False

/-- Where a process can be. -/
structure Proc.Ok (p : Proc) : Prop where
  fresh : p.pc = .check ∨ p.pc = .create → p.created = false
  inits : p.pc = .mutexInit ∨ p.pc = .mutexInitEnd → p.created = true

structure Inv (s : State ι) : Prop where
  procs : ∀ p, (s.proc p).Ok
  before : s.shm = none → ∀ p, (s.proc p).pc = .check ∨ (s.proc p).pc = .create
  creator : ∀ shm, s.shm = some shm →
    ∃ q, (s.proc q).created = true ∧ Matches q (s.proc q).pc shm
  unique : ∀ p q, (s.proc p).Creator → (s.proc q).Creator → p = q

theorem inv_init : Inv (State.init : State ι) where
  procs := fun _ => ⟨fun _ => rfl, by rintro (h | h) <;> cases h⟩
  before := fun _ _ => Or.inl rfl
  creator := nofun
  unique := by rintro _ _ (h | h) _ <;> cases h

variable {s t : State ι} {p q : ι} {pc : Pc} {shm shm' : Shm ι}

/-- The creator opens an object that nobody else has created. -/
theorem Inv.create_absent (h : Inv s) (hpc : (s.proc p).pc = .create) :
    s.shm = none := by
  cases hshm : s.shm with
  | none => rfl
  | some shm =>
      obtain ⟨q, hq, -⟩ := h.creator shm hshm
      have heq := h.unique p q (Or.inl hpc) (Or.inr hq)
      subst heq
      have hfalse := (h.procs p).fresh (Or.inr hpc)
      rw [hq] at hfalse
      cases hfalse

theorem Matches.congr {r : ι} {pc : Pc} (h : Matches r pc shm)
    (hlogs : shm'.begun = shm.begun ∧ shm'.done = shm.done) :
    Matches r pc shm' := by
  cases pc <;> simp_all [Matches]

theorem Matches.begun_le (h : Matches q pc shm) : shm.begun.length ≤ 1 := by
  cases pc <;> simp_all [Matches]

/-- The creator that is behind the initialisation has done it. -/
theorem Inv.creator_done (h : Inv s) (hshm : s.shm = some shm)
    (hq : (s.proc q).created = true)
    (hpc : (s.proc q).pc = .ret ∨ (s.proc q).pc = .returned) :
    InitialisedOnce s := by
  obtain ⟨r, hr, hm⟩ := h.creator shm hshm
  have heq := h.unique q r (Or.inr hq) (Or.inr hr)
  subst heq
  refine ⟨q, shm, hshm, ?_⟩
  rcases hpc with hpc | hpc
  · simpa [hpc, Matches] using hm
  · simpa [hpc, Matches] using hm

theorem Inv.opened (h : Inv s) (hpc : (s.proc p).pc = .returned) :
    ∃ shm, s.shm = some shm := by
  cases hshm : s.shm with
  | none =>
      rcases h.before hshm p with hp | hp <;> rw [hpc] at hp <;> cases hp
  | some shm => exact ⟨shm, rfl⟩

theorem Inv.atMostOnce (h : Inv s) : AtMostOnce s := by
  intro shm hshm
  obtain ⟨q, -, hm⟩ := h.creator shm hshm
  exact hm.begun_le

theorem Inv.allReturned (h : Inv s) (hr : AllReturned s) :
    InitialisedOnce s := by
  obtain ⟨⟨p, hp⟩, hall⟩ := hr
  obtain ⟨shm, hshm⟩ := h.opened hp
  obtain ⟨q, hq, -⟩ := h.creator shm hshm
  rcases hall q with hpc | hpc
  · have hfalse := (h.procs q).fresh (Or.inl hpc)
    rw [hq] at hfalse
    cases hfalse
  · exact h.creator_done hshm hq (Or.inr hpc)

variable [DecidableEq ι]

@[simp] theorem goto_self : (s.goto p pc).proc p = ⟨pc, (s.proc p).created⟩ :=
  Function.update_self ..

theorem goto_other (h : q ≠ p) : (s.goto p pc).proc q = s.proc q :=
  Function.update_of_ne h ..

/-- A step on the object that was opened: the logs only change by the hand of
the creator, and go with where it is. -/
structure Advances (s : State ι) (p : ι) (pc : Pc) (shm shm' : Shm ι) :
    Prop where
  opened : s.shm = some shm
  past : (s.proc p).pc ≠ .check ∧ (s.proc p).pc ≠ .create
  stays : pc ≠ .check ∧ pc ≠ .create
  ok : Proc.Ok ⟨pc, (s.proc p).created⟩
  mine : (s.proc p).created = true → Matches p (s.proc p).pc shm →
    Matches p pc shm'
  kept : (s.proc p).created = true → Matches p (s.proc p).pc shm →
    shm.done ≠ [] → shm'.begun = shm.begun ∧ shm'.done = shm.done
  other : (s.proc p).created = false →
    shm'.begun = shm.begun ∧ shm'.done = shm.done

/-- What a step can do. -/
inductive Steps (s : State ι) (p : ι) : State ι → Prop
  | absent (hpc : (s.proc p).pc = .check) (hshm : s.shm = none) :
      Steps s p (s.goto p .create)
  | found (shm : Shm ι) (hpc : (s.proc p).pc = .check)
      (hshm : s.shm = some shm) : Steps s p (s.goto p .ftruncate)
  | create (hpc : (s.proc p).pc = .create) : Steps s p (s.create p)
  | advance (pc : Pc) (shm shm' : Shm ι) (h : Advances s p pc shm shm') :
      Steps s p ((s.goto p pc).setShm shm')

/-- A step that leaves the object as it is. -/
theorem setShm_goto (h : s.shm = some shm) :
    s.goto p pc = (s.goto p pc).setShm shm := by
  rw [State.setShm, ← h]
  rfl

theorem step_steps (hok : (s.proc p).Ok) (h : step s p = some t) :
    Steps s p t := by
  cases hpc : (s.proc p).pc with
  | check =>
      cases hshm : s.shm with
      | none =>
          simp only [step, hpc, hshm] at h
          cases h
          exact Steps.absent hpc hshm
      | some shm =>
          simp only [step, hpc, hshm] at h
          cases h
          exact Steps.found shm hpc hshm
  | create =>
      simp only [step, hpc] at h
      cases h
      exact Steps.create hpc
  | returned => simp only [step, hpc, reduceCtorEq] at h
  | ftruncate =>
      cases hshm : s.shm with
      | none => simp only [step, hpc, hshm, reduceCtorEq] at h
      | some shm =>
          simp only [step, hpc, hshm] at h
          cases h
          exact Steps.advance _ shm _
            ⟨hshm, by simp [hpc], by simp, ⟨by simp, by simp⟩,
              fun _ hm => by simpa [hpc, Matches] using hm,
              fun _ _ _ => ⟨rfl, rfl⟩, fun _ => ⟨rfl, rfl⟩⟩
  | mmap =>
      cases hshm : s.shm with
      | none => simp only [step, hpc, hshm, reduceCtorEq] at h
      | some shm =>
          simp only [step, hpc, hshm] at h
          cases h
          rw [setShm_goto hshm]
          refine Steps.advance _ shm shm
            ⟨hshm, by simp [hpc], ?_, ?_, ?_, fun _ _ _ => ⟨rfl, rfl⟩,
              fun _ => ⟨rfl, rfl⟩⟩
          · split <;> simp
          · split
            · next hcreated => exact ⟨by simp, fun _ => hcreated⟩
            · exact ⟨by simp, by simp⟩
          · intro hcreated hm
            rw [if_pos hcreated]
            simpa [hpc, Matches] using hm
  | mutexInit =>
      cases hshm : s.shm with
      | none => simp only [step, hpc, hshm, reduceCtorEq] at h
      | some shm =>
          simp only [step, hpc, hshm] at h
          cases h
          have hcreated := hok.inits (Or.inl hpc)
          refine Steps.advance _ shm _
            ⟨hshm, by simp [hpc], by simp, ⟨by simp, fun _ => hcreated⟩, ?_,
              ?_, ?_⟩
          · intro _ hm
            obtain ⟨hbegun, hdone⟩ : shm.begun = [] ∧ shm.done = [] := by
              simpa [hpc, Matches] using hm
            simp [Matches, hbegun, hdone]
          · intro _ hm hdone
            rw [hpc] at hm
            exact absurd hm.2 hdone
          · intro hnot
            rw [hcreated] at hnot
            cases hnot
  | mutexInitEnd =>
      cases hshm : s.shm with
      | none => simp only [step, hpc, hshm, reduceCtorEq] at h
      | some shm =>
          simp only [step, hpc, hshm] at h
          cases h
          have hcreated := hok.inits (Or.inr hpc)
          refine Steps.advance _ shm _
            ⟨hshm, by simp [hpc], by simp, ⟨by simp, fun _ => hcreated⟩, ?_,
              ?_, ?_⟩
          · intro _ hm
            obtain ⟨hbegun, hdone⟩ : shm.begun = [p] ∧ shm.done = [] := by
              simpa [hpc, Matches] using hm
            simp [Matches, hbegun, hdone]
          · intro _ hm hdone
            rw [hpc] at hm
            exact absurd hm.2 hdone
          · intro hnot
            rw [hcreated] at hnot
            cases hnot
  | ret =>
      cases hshm : s.shm with
      | none => simp only [step, hpc, hshm, reduceCtorEq] at h
      | some shm =>
          simp only [step, hpc, hshm] at h
          cases h
          rw [setShm_goto hshm]
          exact Steps.advance _ shm shm
            ⟨hshm, by simp [hpc], by simp, ⟨by simp, by simp⟩,
              fun _ hm => by simpa [hpc, Matches] using hm,
              fun _ _ _ => ⟨rfl, rfl⟩, fun _ => ⟨rfl, rfl⟩⟩

/-! ## One creator -/

theorem Proc.Creator.of_past {r : Proc} (h : r.Creator) (hpc : r.pc ≠ .create) :
    r.created = true :=
  h.resolve_left hpc

theorem Inv.absent (h : Inv s) (hpc : (s.proc p).pc = .check)
    (hshm : s.shm = none) (hguard : ∀ q, (s.proc q).pc ≠ .create) :
    Inv (s.goto p .create) := by
  have hnone (q : ι) : ¬ (s.proc q).Creator := by
    intro hq
    have hfresh := (h.procs q).fresh (h.before hshm q)
    rw [hq.of_past (hguard q)] at hfresh
    cases hfresh
  have honly (q : ι) (hq : ((s.goto p .create).proc q).Creator) : q = p := by
    by_contra hne
    rw [goto_other hne] at hq
    exact hnone q hq
  refine ⟨?_, ?_, ?_, ?_⟩
  · intro q
    by_cases hq : q = p
    · subst hq
      rw [goto_self]
      exact ⟨fun _ => (h.procs q).fresh (Or.inl hpc), by simp⟩
    · rw [goto_other hq]
      exact h.procs q
  · intro _ q
    by_cases hq : q = p
    · subst hq
      rw [goto_self]
      exact Or.inr rfl
    · rw [goto_other hq]
      exact h.before hshm q
  · intro shm hsome
    rw [show (s.goto p .create).shm = none from hshm] at hsome
    cases hsome
  · intro a b ha hb
    rw [honly a ha, honly b hb]

theorem Inv.found (h : Inv s) (hpc : (s.proc p).pc = .check)
    (hshm : s.shm = some shm) : Inv (s.goto p .ftruncate) := by
  have hfalse := (h.procs p).fresh (Or.inl hpc)
  have hother {q : ι} (hq : ((s.goto p .ftruncate).proc q).Creator) :
      (s.proc q).Creator := by
    by_cases hqp : q = p
    · subst hqp
      rw [goto_self] at hq
      have htrue := hq.of_past (by simp)
      rw [show (s.proc q).created = true from htrue] at hfalse
      cases hfalse
    · rw [goto_other hqp] at hq
      exact hq
  refine ⟨?_, ?_, ?_, fun a b ha hb => h.unique a b (hother ha) (hother hb)⟩
  · intro q
    by_cases hq : q = p
    · subst hq
      rw [goto_self]
      exact ⟨by simp, by simp⟩
    · rw [goto_other hq]
      exact h.procs q
  · intro hnone
    rw [show (s.goto p .ftruncate).shm = some shm from hshm] at hnone
    cases hnone
  · intro shm' hsome
    obtain ⟨q, hq, hm⟩ := h.creator shm' hsome
    have hqp : q ≠ p := by
      rintro rfl
      rw [hq] at hfalse
      cases hfalse
    exact ⟨q, by rw [goto_other hqp]; exact hq,
      by rw [goto_other hqp]; exact hm⟩

theorem Inv.create (h : Inv s) (hpc : (s.proc p).pc = .create) :
    Inv (s.create p) := by
  have hshm := h.create_absent hpc
  have hself : (s.create p).proc p = ⟨.ftruncate, true⟩ :=
    Function.update_self ..
  have hother {q : ι} (hq : q ≠ p) : (s.create p).proc q = s.proc q :=
    Function.update_of_ne hq ..
  have hbefore {q : ι} (hq : ((s.create p).proc q).Creator) :
      (s.proc q).Creator := by
    by_cases hqp : q = p
    · rw [hqp]
      exact Or.inl hpc
    · rw [hother hqp] at hq
      exact hq
  refine ⟨?_, nofun, ?_,
    fun a b ha hb => h.unique a b (hbefore ha) (hbefore hb)⟩
  · intro q
    by_cases hq : q = p
    · subst hq
      rw [hself]
      exact ⟨by simp, by simp⟩
    · rw [hother hq]
      exact h.procs q
  · intro shm hsome
    have hnew : shm = ⟨0, [], []⟩ := by
      have heq : (s.create p).shm = some ⟨0, [], []⟩ := by
        rw [State.create, hshm]
        rfl
      rw [heq] at hsome
      exact (Option.some.inj hsome).symm
    refine ⟨p, by rw [hself], ?_⟩
    rw [hself, hnew]
    exact ⟨rfl, rfl⟩

theorem Inv.advance (h : Inv s) (ha : Advances s p pc shm shm') :
    Inv ((s.goto p pc).setShm shm') := by
  have hbefore {q : ι} (hq : ((s.goto p pc).proc q).Creator) :
      (s.proc q).Creator := by
    by_cases hqp : q = p
    · subst hqp
      rw [goto_self] at hq
      exact Or.inr (hq.of_past ha.stays.2)
    · rw [goto_other hqp] at hq
      exact hq
  refine ⟨?_, nofun, ?_,
    fun a b ha' hb => h.unique a b (hbefore ha') (hbefore hb)⟩
  · intro q
    show ((s.goto p pc).proc q).Ok
    by_cases hq : q = p
    · subst hq
      rw [goto_self]
      exact ha.ok
    · rw [goto_other hq]
      exact h.procs q
  · rintro _ ⟨⟩
    obtain ⟨q, hq, hm⟩ := h.creator shm ha.opened
    refine ⟨q, ?_⟩
    show ((s.goto p pc).proc q).created = true ∧
      Matches q ((s.goto p pc).proc q).pc shm'
    by_cases hqp : q = p
    · subst hqp
      rw [goto_self]
      exact ⟨hq, ha.mine hq hm⟩
    · rw [goto_other hqp]
      -- the process that moved is not the creator
      have hfalse : (s.proc p).created = false := by
        cases hp : (s.proc p).created with
        | false => rfl
        | true => exact absurd (h.unique q p (Or.inr hq) (Or.inr hp)) hqp
      exact ⟨hq, hm.congr (ha.other hfalse)⟩

theorem Inv.step (h : Inv s) (hguard : ChecksBeforeOrAfterCreation s p)
    (hs : step s p = some t) : Inv t := by
  cases step_steps (h.procs p) hs with
  | absent hpc hshm => exact h.absent hpc hshm (hguard hpc)
  | found shm hpc hshm => exact h.found hpc hshm
  | create hpc => exact h.create hpc
  | advance pc shm shm' ha => exact h.advance ha

/-! ## Nobody is early -/

/-- Whoever found the object finds the mutex initialised. -/
structure Ready (s : State ι) : Prop where
  inv : Inv s
  found : ∀ p, (s.proc p).pc ≠ .check → ¬ (s.proc p).Creator →
    InitialisedOnce s

omit [DecidableEq ι] in
theorem ready_init : Ready (State.init : State ι) :=
  ⟨inv_init, fun _ h => absurd rfl h⟩

theorem Inv.initialised_advance (h : Inv s) (ha : Advances s p pc shm shm')
    (hs : InitialisedOnce s) : InitialisedOnce ((s.goto p pc).setShm shm') := by
  obtain ⟨q, shm₀, hshm, hbegun, hdone⟩ := hs
  have heq : shm₀ = shm := Option.some.inj (hshm.symm.trans ha.opened)
  subst heq
  have hlogs : shm'.begun = shm₀.begun ∧ shm'.done = shm₀.done := by
    cases hp : (s.proc p).created with
    | false => exact ha.other hp
    | true =>
        obtain ⟨r, hr, hm⟩ := h.creator shm₀ hshm
        have hrp := h.unique r p (Or.inr hr) (Or.inr hp)
        subst hrp
        exact ha.kept hp hm (by simp [hdone])
  exact ⟨q, shm', rfl, hlogs.1.trans hbegun, hlogs.2.trans hdone⟩

theorem Ready.step (h : Ready s) (hguard : ChecksBeforeOrAfterInit s p)
    (hs : step s p = some t) : Ready t := by
  have hcreation : ChecksBeforeOrAfterCreation s p :=
    fun hpc q hq => hguard hpc q (Or.inl hq)
  refine ⟨h.inv.step hcreation hs, ?_⟩
  intro q hpast hnot
  cases step_steps (h.inv.procs p) hs with
  | absent hpc hshm =>
      exfalso
      by_cases hq : q = p
      · subst hq
        rw [goto_self] at hnot
        exact hnot (Or.inl rfl)
      · rw [goto_other hq] at hpast hnot
        rcases h.inv.before hshm q with hcheck | hcreate
        · exact hpast hcheck
        · exact hnot (Or.inl hcreate)
  | found shm hpc hshm =>
      -- the creator is not at work, and so it has finished
      obtain ⟨r, hr, -⟩ := h.inv.creator shm hshm
      have hdone : (s.proc r).pc = .ret ∨ (s.proc r).pc = .returned := by
        by_contra hpcs
        rw [not_or] at hpcs
        exact hguard hpc r (Or.inr ⟨hr, hpcs⟩)
      exact h.inv.creator_done hshm hr hdone
  | create hpc =>
      exfalso
      by_cases hq : q = p
      · subst hq
        rw [show (s.create q).proc q = ⟨.ftruncate, true⟩ from
          Function.update_self ..] at hnot
        exact hnot (Or.inr rfl)
      · rw [show (s.create p).proc q = s.proc q from
          Function.update_of_ne hq ..] at hpast hnot
        obtain ⟨-, shm, hshm, -⟩ := h.found q hpast hnot
        rw [h.inv.create_absent hpc] at hshm
        cases hshm
  | advance pc shm shm' ha =>
      refine h.inv.initialised_advance ha (h.found q ?_ ?_)
      · intro hcheck
        by_cases hq : q = p
        · subst hq
          exact ha.past.1 hcheck
        · exact hpast ((congrArg Proc.pc (goto_other hq)).trans hcheck)
      · intro hcreator
        refine hnot ?_
        show ((s.goto p pc).proc q).Creator
        by_cases hq : q = p
        · subst hq
          rw [goto_self]
          exact Or.inr (hcreator.of_past ha.past.2)
        · rw [goto_other hq]
          exact hcreator

omit [DecidableEq ι] in
theorem Ready.returned (h : Ready s) (hpc : (s.proc p).pc = .returned) :
    InitialisedOnce s := by
  by_cases hcreator : (s.proc p).Creator
  · obtain ⟨shm, hshm⟩ := h.inv.opened hpc
    exact h.inv.creator_done hshm (hcreator.of_past (by simp [hpc]))
      (Or.inr hpc)
  · exact h.found p (by simp [hpc]) hcreator

/-- While nobody looks for the object between the check of its creator and the
creation, at most one process initialises the mutex, and one does by the time
all have returned. While nobody looks for it before the initialisation is over
either, no call returns before. -/
theorem shared_mutex_initialised {s : State ι} {acts : List ι}
    (hrun : exec step State.init acts = some s) :
    (Along step ChecksBeforeOrAfterCreation State.init acts →
      AtMostOnce s ∧ (AllReturned s → InitialisedOnce s)) ∧
    (Along step ChecksBeforeOrAfterInit State.init acts →
      ∀ p, (s.proc p).pc = .returned → InitialisedOnce s) := by
  constructor
  · intro hguard
    have h : Inv s := exec_inv_along (fun _ _ _ h hg hs => h.step hg hs)
      inv_init hguard hrun
    exact ⟨h.atMostOnce, h.allReturned⟩
  · intro hguard p hp
    have h : Ready s := exec_inv_along (fun _ _ _ h hg hs => h.step hg hs)
      ready_init hguard hrun
    exact h.returned hp

/-- One process runs through, and then the other. -/
def oneAfterAnother : List Bool :=
  List.replicate 7 true ++ List.replicate 4 false

theorem shared_mutex_initialised_sequentially : ∃ s,
    exec step State.init oneAfterAnother = some s ∧
      AtMostOnce s ∧ InitialisedOnce s ∧ (s.proc true).created = true ∧
      (s.proc false).created = false := by
  have hrun : (exec step State.init oneAfterAnother).map
      (fun s => (s.proc true, s.proc false)) =
        some (⟨.returned, true⟩, ⟨.returned, false⟩) := by
    decide +kernel
  obtain ⟨s, hs, hres⟩ := Option.map_eq_some_iff.mp hrun
  simp only [Prod.mk.injEq] at hres
  obtain ⟨htrue, hfalse⟩ := hres
  have hcreation : Along step ChecksBeforeOrAfterCreation State.init
      oneAfterAnother := by
    decide +kernel
  have hinit : Along step ChecksBeforeOrAfterInit State.init
      oneAfterAnother := by
    decide +kernel
  obtain ⟨honce, hearly⟩ := shared_mutex_initialised hs
  exact ⟨s, hs, (honce hcreation).1, hearly hinit true (by rw [htrue]),
    by rw [htrue], by rw [hfalse]⟩

/-- Both processes look for the object before one of them creates it. -/
def bothCheck : List Bool :=
  [true, false, true, false] ++ List.replicate 4 true ++
    List.replicate 3 false

/-- One process finds the object before the mutex is initialised. -/
def foundEarly : List Bool := [true, true, false, false, false, false]

/-- Two processes begin to initialise the mutex; a call returns before
anybody has. -/
theorem shared_mutex_races :
    (∃ s, exec step State.init bothCheck = some s ∧
      s.shm = some ⟨40, [true, false], [true]⟩ ∧ ¬ AtMostOnce s) ∧
    (∃ s, exec step State.init foundEarly = some s ∧
      (s.proc false).pc = .returned ∧ s.shm = some ⟨40, [], []⟩ ∧
      ¬ InitialisedOnce s) := by
  constructor
  · have hrun : (exec step State.init bothCheck).map State.shm =
        some (some ⟨40, [true, false], [true]⟩) := by
      decide +kernel
    obtain ⟨s, hs, hshm⟩ := Option.map_eq_some_iff.mp hrun
    exact ⟨s, hs, hshm, fun h => absurd (h _ hshm) (by decide)⟩
  · have hrun : (exec step State.init foundEarly).map
        (fun s => ((s.proc false).pc, s.shm)) =
          some (.returned, some ⟨40, [], []⟩) := by
      decide +kernel
    obtain ⟨s, hs, hres⟩ := Option.map_eq_some_iff.mp hrun
    simp only [Prod.mk.injEq] at hres
    obtain ⟨hpc, hshm⟩ := hres
    refine ⟨s, hs, hpc, hshm, ?_⟩
    intro ⟨q, shm, hsome, _, hdone⟩
    rw [hshm] at hsome
    cases hsome
    cases hdone

end LearningLinux.MutexProcess
