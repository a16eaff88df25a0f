import LearningLinux.Lib.Ring
import LearningLinux.ProducerConsumer.Model

/-!
# What the bounded buffer guarantees

`Correct` is the contract: the count stays within the buffer, `put()` and
`get()` run only where there is room or an item, and the values come out in
the order they went in. The buffer itself is a ring (`Lib.Ring`), so the last
part is bookkeeping: what was put is what was got followed by what is stored.

The producers keep the contract. They test `count == MAX` again after every
wait. The consumers wait in an `if`, and between the signal and the moment
the woken consumer has the mutex back another one may have taken the item
(or there never was one, if the wake-up is spurious). A run meets the
contract throughout exactly if that never happens in it, which is
`always_correct_iff`.
-/

namespace LearningLinux.ProducerConsumer

open LearningLinux.Lib

variable {ι : Type*} {prog : ι → Routine} {s s' : State ι} {t : ι} {p : Pc}
  {m : Monitor ι Cond} {woken : Finset ι} {loops : Int}

/-! ## The contract -/

structure Correct (prog : ι → Routine) (s : State ι) : Prop where
  count_nonneg : 0 ≤ s.count
  count_le : s.count ≤ MAX
  put_room : ∀ t loops, prog t = .produce loops → s.pc t = .access →
    s.count < MAX
  get_item : ∀ t loops, prog t = .consume loops → s.pc t = .access →
    0 < s.count
  fifo : s.gets <+: s.puts

/-- A consumer that comes back from `pthread_cond_wait` finds an item. -/
def WakesToItem (prog : ι → Routine) (s : State ι) : Act ι → Prop
  | .run t _ => ∀ loops, prog t = .consume loops → s.pc t = .blocked →
      s.count ≠ 0
  | .spurious _ _ => True

/-! ## The invariant -/

/-- The statements between taking the mutex and giving it back. -/
def Pc.inside : Pc → Bool
  | .check | .wait | .access | .signal | .unlock => true
  | .test | .lock | .blocked | .done => false

/-- There is room for the producer, or an item for the consumer. -/
def Ready (prog : ι → Routine) (s : State ι) (t : ι) : Prop :=
  match prog t with
  | .produce _ => s.count < MAX
  | .consume _ => 0 < s.count

theorem ready_produce (hprog : prog t = .produce loops) :
    Ready prog s t ↔ s.count < MAX := by
  rw [Ready, hprog]

theorem ready_consume (hprog : prog t = .consume loops) :
    Ready prog s t ↔ 0 < s.count := by
  rw [Ready, hprog]

structure Inv (prog : ι → Routine) (s : State ι) : Prop where
  excl : Excl s.mon.owner fun t => (s.pc t).inside = true
  stored : ∃ q, s.puts = s.gets ++ q ∧ s.count = q.length ∧
    Ring MAX s.buffer s.use s.fill q
  ready : ∀ t, s.pc t = .access → Ready prog s t

theorem inv_init : Inv prog (State.init : State ι) where
  excl := by intro t ht; cases ht
  stored := ⟨[], rfl, rfl, ring_nil (by decide)⟩
  ready := by intro t ht; cases ht

theorem Inv.correct (h : Inv prog s) : Correct prog s := by
  obtain ⟨q, hq, hcount, hring⟩ := h.stored
  refine ⟨?_, ?_, ?_, ?_, ?_⟩
  · rw [hcount]
    exact Int.natCast_nonneg _
  · rw [hcount]
    exact Int.ofNat_le.mpr hring.fits
  · intro t loops hprog hpc
    exact (ready_produce hprog).mp (h.ready t hpc)
  · intro t loops hprog hpc
    exact (ready_consume hprog).mp (h.ready t hpc)
  · rw [hq]
    exact List.prefix_append _ _

/-! ## Moving a thread

Most statements leave the buffer alone: they move their thread, and take or
release the mutex. -/

variable [DecidableEq ι]

theorem inside_of_ne {u : ι} (hu : u ≠ t)
    (h : (Function.update s.pc t p u).inside = true) :
    (s.pc u).inside = true := by
  rwa [Function.update_of_ne hu] at h

theorem Inv.moved (h : Inv prog s)
    (hexcl : Excl m.owner fun u => (Function.update s.pc t p u).inside = true)
    (hready : p = .access → Ready prog s t) :
    Inv prog ((s.goto t p).withMon m) where
  excl := hexcl
  stored := h.stored
  ready := by
    intro u hu
    change Function.update s.pc t p u = .access at hu
    by_cases hut : u = t
    · subst hut
      rw [Function.update_self] at hu
      exact hready hu
    · rw [Function.update_of_ne hut] at hu
      exact h.ready u hu

/-- A statement that neither takes nor releases the mutex. -/
theorem Inv.stay (h : Inv prog s) (howner : m.owner = s.mon.owner)
    (hin : p.inside = true → (s.pc t).inside = true)
    (hready : p = .access → Ready prog s t) :
    Inv prog ((s.goto t p).withMon m) := by
  refine h.moved ?_ hready
  rw [howner]
  refine h.excl.move (t := t) ?_ fun u hu => inside_of_ne hu
  intro ht
  rw [Function.update_self] at ht
  exact hin ht

theorem Inv.goto (h : Inv prog s)
    (hin : p.inside = true → (s.pc t).inside = true)
    (hready : p = .access → Ready prog s t) : Inv prog (s.goto t p) :=
  h.stay (m := s.mon) rfl hin hready

/-- Taking the mutex, for the first time or back after a wait. -/
theorem Inv.enter (h : Inv prog s) (hfree : s.mon.owner = none)
    (howner : m.owner = some t) (hready : p = .access → Ready prog s t) :
    Inv prog ((s.goto t p).withMon m) := by
  refine h.moved ?_ hready
  have hexcl := h.excl
  rw [hfree] at hexcl
  rw [howner]
  exact hexcl.acquire fun u hu => inside_of_ne hu

/-- Releasing the mutex, for good or in a wait. -/
theorem Inv.leave (h : Inv prog s) (howns : s.mon.owner = some t)
    (howner : m.owner = none) (hout : p.inside = false) :
    Inv prog ((s.goto t p).withMon m) := by
  refine h.moved ?_ ?_
  · have hexcl := h.excl
    rw [howns] at hexcl
    rw [howner]
    refine hexcl.release ?_ fun u hu => inside_of_ne hu
    rw [Function.update_self, hout]
    exact Bool.false_ne_true
  · intro hp
    rw [hp] at hout
    cases hout

theorem Inv.advance (h : Inv prog s) : Inv prog (s.advance t) :=
  ⟨h.excl, h.stored, h.ready⟩

/-! ## `put()` and `get()`

The thread that accesses the buffer is inside, so no other is, and none is
about to access it. -/

theorem Inv.no_access (h : Inv prog s) (hpc : s.pc t = .access)
    {u : ι} (hu : Function.update s.pc t .signal u = .access) : False := by
  by_cases hut : u = t
  · rw [hut, Function.update_self] at hu
    cases hu
  · rw [Function.update_of_ne hut] at hu
    have hin : ∀ v, s.pc v = .access → (s.pc v).inside = true := by
      intro v hv
      rw [hv]
      rfl
    exact hut (h.excl.eq (h.excl t (hin t hpc)) (hin u hu))

theorem Inv.excl_signal (h : Inv prog s) (hpc : s.pc t = .access) :
    Excl s.mon.owner
      fun u => (Function.update s.pc t .signal u).inside = true := by
  refine h.excl.move (t := t) ?_ fun u hu => inside_of_ne hu
  intro _
  rw [hpc]
  rfl

theorem Inv.put (h : Inv prog s) (hpc : s.pc t = .access)
    (hroom : s.count < MAX) (v : Int) :
    Inv prog ((s.put v).goto t .signal) where
  excl := h.excl_signal hpc
  stored := by
    obtain ⟨q, hq, hcount, hring⟩ := h.stored
    have hlt : q.length < MAX := by omega
    refine ⟨q ++ [v], ?_, ?_, hring.push hlt⟩
    · change s.puts ++ [v] = s.gets ++ (q ++ [v])
      rw [hq, List.append_assoc]
    · change s.count + 1 = _
      rw [hcount, List.length_append, List.length_singleton]
      rfl
  ready := by intro u hu; exact absurd hu (h.no_access hpc)

theorem Inv.get (h : Inv prog s) (hpc : s.pc t = .access)
    (hitem : 0 < s.count) : Inv prog (s.get.goto t .signal) where
  excl := h.excl_signal hpc
  stored := by
    obtain ⟨q, hq, hcount, hring⟩ := h.stored
    cases q with
    | nil =>
        rw [hcount] at hitem
        cases hitem
    | cons v q =>
        refine ⟨q, ?_, ?_, hring.pop⟩
        · change s.puts = (s.gets ++ [s.buffer s.use]) ++ q
          rw [hring.head, hq, List.append_assoc]
          rfl
        · change s.count - 1 = _
          rw [hcount, List.length_cons]
          omega
  ready := by intro u hu; exact absurd hu (h.no_access hpc)

/-! ## One step -/

theorem Inv.signals (h : Inv prog s) {c : Cond} (hpc : s.pc t = .signal)
    (hs : (s.mon.signal c woken).map (s.goto t .unlock).withMon = some s') :
    Inv prog s' := by
  obtain ⟨m, hm, rfl⟩ := Option.map_eq_some_iff.mp hs
  obtain ⟨-, -, rfl⟩ := Monitor.signal_eq_some.mp hm
  exact h.stay rfl (fun _ => by rw [hpc]; rfl) nofun

theorem Inv.locks (h : Inv prog s)
    (hs : (s.mon.lock t).map (s.goto t .check).withMon = some s') :
    Inv prog s' := by
  obtain ⟨m, hm, rfl⟩ := Option.map_eq_some_iff.mp hs
  obtain ⟨hfree, rfl⟩ := Monitor.lock_eq_some.mp hm
  exact h.enter hfree rfl nofun

theorem Inv.unlocks (h : Inv prog s)
    (hs : (s.mon.unlock t).map ((s.advance t).goto t .test).withMon =
      some s') : Inv prog s' := by
  obtain ⟨m, hm, rfl⟩ := Option.map_eq_some_iff.mp hs
  obtain ⟨howns, rfl⟩ := Monitor.unlock_eq_some.mp hm
  exact h.advance.leave howns rfl rfl

theorem Inv.waits (h : Inv prog s) {c : Cond}
    (hs : (s.mon.wait c t).map (s.goto t .blocked).withMon = some s') :
    Inv prog s' := by
  obtain ⟨m, hm, rfl⟩ := Option.map_eq_some_iff.mp hs
  obtain ⟨howns, rfl⟩ := Monitor.wait_eq_some.mp hm
  exact h.leave howns rfl rfl

theorem Inv.relocks (h : Inv prog s) {c : Cond}
    (hready : p = .access → Ready prog s t)
    (hs : (s.mon.relock c t).map (s.goto t p).withMon = some s') :
    Inv prog s' := by
  obtain ⟨m, hm, rfl⟩ := Option.map_eq_some_iff.mp hs
  obtain ⟨-, hfree, rfl⟩ := Monitor.relock_eq_some.mp hm
  exact h.enter hfree rfl hready

theorem Inv.tests (h : Inv prog s) :
    Inv prog (s.goto t (if s.i t < loops then .lock else .done)) := by
  split
  · exact h.goto nofun nofun
  · exact h.goto nofun nofun

/-- A test of `count` that sends its thread to wait or on to the buffer. -/
theorem Inv.checks (h : Inv prog s) (hpc : s.pc t = .check) {full : Prop}
    [Decidable full] (hready : ¬ full → Ready prog s t) :
    Inv prog (s.goto t (if full then .wait else .access)) := by
  have hin : (s.pc t).inside = true := by rw [hpc]; rfl
  split
  · exact h.goto (fun _ => hin) nofun
  · next hn => exact h.goto (fun _ => hin) fun _ => hready hn

theorem Inv.produce (h : Inv prog s) (hprog : prog t = .produce loops)
    (hs : s.produce loops t woken = some s') : Inv prog s' := by
  rw [State.produce] at hs
  cases hpc : s.pc t with
  | test =>
      simp only [hpc] at hs
      cases hs
      exact h.tests
  | lock =>
      simp only [hpc] at hs
      exact h.locks hs
  | check =>
      simp only [hpc] at hs
      cases hs
      refine h.checks hpc fun hne => (ready_produce hprog).mpr ?_
      exact lt_of_le_of_ne h.correct.count_le hne
  | wait =>
      simp only [hpc] at hs
      exact h.waits hs
  | blocked =>
      simp only [hpc] at hs
      exact h.relocks (p := .check) nofun hs
  | access =>
      simp only [hpc] at hs
      cases hs
      exact h.put hpc ((ready_produce hprog).mp (h.ready t hpc)) _
  | signal =>
      simp only [hpc] at hs
      exact h.signals hpc hs
  | unlock =>
      simp only [hpc] at hs
      exact h.unlocks hs
  | done =>
      simp only [hpc] at hs
      cases hs

theorem Inv.consume (h : Inv prog s) (hprog : prog t = .consume loops)
    (hitem : s.pc t = .blocked → s.count ≠ 0)
    (hs : s.consume loops t woken = some s') : Inv prog s' := by
  have hpos : s.count ≠ 0 → Ready prog s t := fun hne =>
    (ready_consume hprog).mpr (lt_of_le_of_ne h.correct.count_nonneg hne.symm)
  rw [State.consume] at hs
  cases hpc : s.pc t with
  | test =>
      simp only [hpc] at hs
      cases hs
      exact h.tests
  | lock =>
      simp only [hpc] at hs
      exact h.locks hs
  | check =>
      simp only [hpc] at hs
      cases hs
      exact h.checks hpc hpos
  | wait =>
      simp only [hpc] at hs
      exact h.waits hs
  | blocked =>
      -- nothing tests `count` between the wake-up and `get()`
      simp only [hpc] at hs
      exact h.relocks (fun _ => hpos (hitem hpc)) hs
  | access =>
      simp only [hpc] at hs
      cases hs
      exact h.get hpc ((ready_consume hprog).mp (h.ready t hpc))
  | signal =>
      simp only [hpc] at hs
      exact h.signals hpc hs
  | unlock =>
      simp only [hpc] at hs
      exact h.unlocks hs
  | done =>
      simp only [hpc] at hs
      cases hs

theorem Inv.step {a : Act ι} (h : Inv prog s) (hitem : WakesToItem prog s a)
    (hs : step prog s a = some s') : Inv prog s' := by
  cases a with
  | run t woken =>
      rw [ProducerConsumer.step] at hs
      cases hprog : prog t with
      | produce loops =>
          simp only [hprog] at hs
          exact h.produce hprog hs
      | consume loops =>
          simp only [hprog] at hs
          exact h.consume hprog (hitem loops hprog) hs
  | spurious c t =>
      obtain ⟨m, hm, rfl⟩ := Option.map_eq_some_iff.mp hs
      obtain ⟨-, rfl⟩ := Monitor.wake_eq_some.mp hm
      exact ⟨h.excl, h.stored, h.ready⟩

/-- A consumer that gets the mutex back stands before `get()` at once. -/
theorem wakesToItem_of_correct {a : Act ι}
    (hs : step prog s a = some s') (h : Correct prog s') :
    WakesToItem prog s a := by
  cases a with
  | spurious c t => trivial
  | run t woken =>
      intro loops hprog hpc hzero
      rw [ProducerConsumer.step] at hs
      simp only [hprog, State.consume, hpc] at hs
      obtain ⟨m, -, rfl⟩ := Option.map_eq_some_iff.mp hs
      have hpos : 0 < s.count :=
        h.get_item t loops hprog (Function.update_self t _ s.pc)
      omega

/-! ## Whole runs -/

theorem always_correct_iff (prog : ι → Routine) (acts : List (Act ι)) :
    Always (step prog) (Correct prog) State.init acts ↔
      Along (step prog) (WakesToItem prog) State.init acts :=
  always_iff_along (fun _ h => h.correct)
    (fun _ _ _ h hitem hs => h.step hitem hs)
    (fun _ _ _ _ hs hc => wakesToItem_of_correct hs hc) inv_init

/-- The threads `main` creates. -/
def mainThreads : Fin 3 → Routine
  | 0 => .produce 100
  | 1 => .consume 49
  | 2 => .consume 51

/-- The first consumer waits, the producer puts `0` and signals it, and the
second consumer is the first to get the mutex. -/
def stolenItem : List (Act (Fin 3)) :=
  (List.replicate 4 (Act.run 1 ∅)) ++
  (List.replicate 4 (Act.run 0 ∅) ++ [Act.run 0 {1}, Act.run 0 ∅]) ++
  (List.replicate 6 (Act.run 2 ∅)) ++
  (List.replicate 2 (Act.run 1 ∅))

theorem not_always_correct : ¬ ∀ (prog : Fin 3 → Routine) acts,
    Always (step prog) (Correct prog) State.init acts := by
  intro h
  have hrun : (exec (step mainThreads) State.init stolenItem).map
      (fun s => s.count) = some (-1) := by decide +kernel
  obtain ⟨s, hs, hcount⟩ := Option.map_eq_some_iff.mp hrun
  have hnonneg := ((h mainThreads stolenItem).last hs).count_nonneg
  rw [hcount] at hnonneg
  exact absurd hnonneg (by decide)

end LearningLinux.ProducerConsumer
