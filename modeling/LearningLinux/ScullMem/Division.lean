import LearningLinux.ScullMem.InFlight

/-!
# The divisors of reads and writes

The quantum and the number of quanta come a long way: an `ioctl` sets a global
variable to any `int`, a later open for writing only copies it to the device,
and a read or a write that is still later multiplies the two. The product is
an `int` again, and can be zero when neither factor is.

A geometry gets to a device by a trim alone, and to a call in flight from the
device. So if every trim finds parameters whose product is not zero, nothing
divides by zero.
-/

namespace LearningLinux.ScullMem

open LearningLinux.Lib
open LearningLinux.Scull (Params IoctlCall Cmd Verb scullIoctl intOf
  SCULL_QUANTUM SCULL_QSET SCULL_P_BUFFER)

variable {β ι : Type*}

/-- The section gets to its divisions. -/
def Transfer.Divides (dev : ScullDev β) (pos : Nat) : Transfer β → Prop
  | .read c => c.signal = false ∧ pos < dev.size
  | .write c => c.signal = false

/-- Neither divisor is zero. -/
structure Divisors (g : Int × Int) : Prop where
  quantum : g.1 ≠ 0
  itemsize : itemsize g.1 g.2 ≠ 0

theorem divisors_iff {g : Int × Int} :
    Divisors g ↔ itemsize g.1 g.2 ≠ 0 := by
  refine ⟨Divisors.itemsize, fun h => ⟨fun hzero => h ?_, h⟩⟩
  rw [hzero, itemsize, Int.zero_mul]
  rfl

/-- A section that gets to its divisions has divisors that are not zero. -/
def DividesWell (s : Processes β ι) : Act β ι → Prop
  | .locked t pos c =>
      c.Divides s.dev pos → ∀ g, s.loaded t = some g → Divisors g
  | _ => True

/-- A trim finds parameters whose product is not zero as an `int`. -/
def TrimsNonzero (s : Processes β ι) : Act β ι → Prop
  | .opens _ true false =>
      itemsize s.params.scull_quantum s.params.scull_qset ≠ 0
  | _ => True

/-! ## What divides by zero -/

variable {quantum qset : Int} {dev : ScullDev β} {pos : Nat}

theorem writeQuantum_ne {c : WriteCall β} {p : Place} {ptrs : PtrArray β}
    {mallocs : List Bool} :
    writeQuantum quantum dev c pos p ptrs mallocs ≠ .error .divideError := by
  rw [writeQuantum]
  split
  · simp
  split
  · simp
  · dsimp only
    split
    · simp
    split <;> simp

/-- The fault is that of a section with a divisor that is zero. -/
theorem Transfer.divideError_iff {c : Transfer β} :
    c.section quantum qset dev pos = .error .divideError ↔
      c.Divides dev pos ∧ itemsize quantum qset = 0 := by
  cases c with
  | read c =>
      rw [Transfer.section, Divides, scullRead]
      by_cases hsignal : c.signal = true
      · simp [hsignal]
      by_cases hend : pos ≥ dev.size
      · simp [hsignal, hend]
      have hlt : pos < dev.size := Nat.lt_of_not_le hend
      by_cases hzero : itemsize quantum qset = 0
      · simp [hsignal, hlt, hzero]
      · refine iff_of_false ?_ fun h => hzero h.2
        rw [if_neg hsignal, if_neg hend, if_neg hzero]
        dsimp only
        repeat' split
        all_goals simp
  | write c =>
      rw [Transfer.section, Divides, scullWrite]
      by_cases hsignal : c.signal = true
      · simp [hsignal]
      by_cases hzero : itemsize quantum qset = 0
      · simp [hsignal, hzero]
      · refine iff_of_false ?_ fun h => hzero h.2
        rw [if_neg hsignal, if_neg hzero]
        dsimp only
        split
        · simp
        split
        · simp
        · exact writeQuantum_ne

/-! ## Runs -/

section Run

variable [DecidableEq ι] {s t : Processes β ι} {a : Act β ι}

/-- The device and the calls in flight. -/
structure Processes.Nonzero (s : Processes β ι) : Prop where
  dev : Divisors s.dev.geometry
  loaded : ∀ t g, s.loaded t = some g → Divisors g
  fault : s.fault ≠ some .divideError

omit [DecidableEq ι] in
theorem Processes.Nonzero.dividesWell (hs : s.Nonzero) (a : Act β ι) :
    DividesWell s a := by
  cases a with
  | locked t pos c => exact fun _ g hg => hs.loaded t g hg
  | load t => trivial
  | opens t wronly signal => trivial
  | ioctl t cmd c => trivial

theorem Processes.Nonzero.step (hs : s.Nonzero) (htrim : TrimsNonzero s a)
    (h : s.step a = some t) : t.Nonzero := by
  cases a with
  | load u =>
      rw [step_load h]
      refine ⟨hs.dev, fun v g hg => ?_, hs.fault⟩
      rcases loaded_update hg with hnew | hold
      · exact Option.some.inj hnew ▸ hs.dev
      · exact hs.loaded v g hold
  | locked u pos c =>
      obtain ⟨g, hg, hlocked⟩ := step_locked h
      have hdivisors := hs.loaded u g hg
      cases hlocked with
      | returns r hr =>
          refine ⟨?_, fun v g hg => ?_, nofun⟩
          · show Divisors r.dev.geometry
            rw [Transfer.geometry_eq hr]
            exact hs.dev
          · rcases loaded_update hg with hnew | hold
            · cases hnew
            · exact hs.loaded v g hold
      | faults e he =>
          refine ⟨hs.dev, hs.loaded, fun hfault => ?_⟩
          rw [Option.some.inj hfault] at he
          exact hdivisors.itemsize (Transfer.divideError_iff.mp he).2
  | opens u wronly signal =>
      rw [step_opens h]
      refine ⟨?_, hs.loaded, hs.fault⟩
      cases wronly with
      | false => exact hs.dev
      | true =>
          cases signal with
          | true => exact hs.dev
          | false => exact divisors_iff.mpr htrim
  | ioctl u cmd c =>
      rw [step_ioctl h]
      exact ⟨hs.dev, hs.loaded, hs.fault⟩

/-- The parameters as they are in the source. -/
def defaults : Params := ⟨SCULL_QUANTUM, SCULL_QSET, SCULL_P_BUFFER⟩

omit [DecidableEq ι] in
theorem nonzero_init : (Processes.init defaults : Processes β ι).Nonzero :=
  have hproduct : itemsize SCULL_QUANTUM SCULL_QSET ≠ 0 := by decide
  ⟨divisors_iff.mpr hproduct, nofun, nofun⟩

/-- In every interleaving of calls whose trims find a product that is not
zero, no division is by zero. -/
theorem divides_well (acts : List (Act β ι))
    (h : Along Processes.step TrimsNonzero (Processes.init defaults) acts) :
    Along Processes.step DividesWell (Processes.init defaults) acts ∧
      Always Processes.step (fun s => s.fault ≠ some .divideError)
        (Processes.init defaults) acts := by
  refine ⟨along_of_along (fun s a hs => hs.dividesWell a)
    (fun _ _ _ hs hG h => hs.step hG h) nonzero_init h, ?_⟩
  exact always_of_along (fun _ hs => hs.fault)
    (fun _ _ _ hs hG h => hs.step hG h) nonzero_init h

end Run

/-! A quantum of 4 bytes, and then two geometries whose product is zero. -/

def tellAndWrite (quantum qset : Nat) : List (Act UInt8 Bool) :=
  [ .ioctl true (.quantum .T) (telling quantum),
    .ioctl true (.qset .T) (telling qset), .opens true true false, .load true,
    .locked true 0 (writing [1]) ]

theorem divides_well_four :
    Along Processes.step DividesWell (Processes.init defaults)
        (tellAndWrite 4 1000) ∧
      Always Processes.step (fun s => s.fault ≠ some .divideError)
        (Processes.init defaults) (tellAndWrite 4 1000) := by
  refine divides_well (tellAndWrite 4 1000) ?_
  refine along_cons.mpr fun s hs => ⟨trivial, ?_⟩
  refine along_cons.mpr fun t ht => ⟨trivial, ?_⟩
  refine along_cons.mpr fun u hu => ⟨?_, ?_⟩
  · rw [Processes.step_ioctl ht, Processes.step_ioctl hs]
    show itemsize (scullIoctl (scullIoctl defaults (.quantum .T) (telling 4)).2
      (.qset .T) (telling 1000)).2.scull_quantum (scullIoctl
        (scullIoctl defaults (.quantum .T) (telling 4)).2 (.qset .T)
          (telling 1000)).2.scull_qset ≠ 0
    decide +kernel
  · exact along_cons.mpr fun v _ => ⟨trivial,
      along_cons.mpr fun w _ => ⟨trivial, trivial⟩⟩

theorem tellAndWrite_faults :
    (exec Processes.step (Processes.init defaults)
        (tellAndWrite 0 1000)).map Processes.fault =
      some (some .divideError) ∧
    (exec Processes.step (Processes.init defaults)
        (tellAndWrite 65536 65536)).map Processes.fault =
      some (some .divideError) := by
  decide +kernel

end LearningLinux.ScullMem
