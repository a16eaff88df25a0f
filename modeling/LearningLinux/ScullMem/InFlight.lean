import LearningLinux.Lib.Threads
import LearningLinux.ScullMem.Sections

/-!
# Reads and writes in flight

`scull_read` and `scull_write` load the geometry of the device before they
take its lock. Until they have it, another process may open the device for
writing only and so trim it, to a geometry that an `ioctl` has set meanwhile.
The section is then executed with the old values on arrays and quanta of the
new ones.

The value of `*f_pos` is the section's own, any that the kernel passes on.
-/

namespace LearningLinux.ScullMem

open LearningLinux.Lib
open LearningLinux.Scull (Params IoctlCall Answer Cmd Verb paramIoctl
  scullIoctl intOf SCULL_QUANTUM SCULL_QSET)

variable {β ι : Type*}

/-- The rest of a call that has loaded the geometry. -/
inductive Transfer (β : Type*) where
  | read (c : ReadCall)
  | write (c : WriteCall β)

def Transfer.count : Transfer β → Nat
  | .read c => c.count
  | .write c => c.buf.length

def Transfer.section (quantum qset : Int) (dev : ScullDev β) (pos : Nat) :
    Transfer β → Except Fault (Section β)
  | .read c => scullRead quantum qset dev c pos
  | .write c => scullWrite quantum qset dev c pos

/-- `loaded` has the geometry that each call in flight found, `fault` how the
last section ended if it did not return. -/
structure Processes (β ι : Type*) where
  dev : ScullDev β
  params : Params
  loaded : ι → Option (Int × Int)
  fault : Option Fault

inductive Act (β ι : Type*) where
  | load (t : ι)
  | locked (t : ι) (pos : Nat) (c : Transfer β)
  | opens (t : ι) (wronly signal : Bool)
  | ioctl (t : ι) (cmd : Cmd) (c : IoctlCall)

def ScullDev.geometry (dev : ScullDev β) : Int × Int := (dev.quantum, dev.qset)

def trimmedTo (p : Params) : Int × Int := (p.scull_quantum, p.scull_qset)

/-- The state that `scull_init_module` leaves. -/
def Processes.init (p : Params) : Processes β ι :=
  ⟨⟨[], p.scull_quantum, p.scull_qset, 0⟩, p, fun _ => none, none⟩

variable [DecidableEq ι]

/-- A process makes one call at a time, and none after a fault. -/
def Processes.step (s : Processes β ι) : Act β ι → Option (Processes β ι)
  | .load t =>
      if s.fault = none ∧ s.loaded t = none then
        some { s with
          loaded := Function.update s.loaded t (some s.dev.geometry) }
      else none
  | .locked t pos c =>
      match s.loaded t with
      | none => none
      | some g =>
          if s.fault = none ∧ pos + c.count < 2 ^ 63 then
            match c.section g.1 g.2 s.dev pos with
            | .ok r =>
                some ⟨r.dev, s.params, Function.update s.loaded t none, none⟩
            | .error e => some { s with fault := some e }
          else none
  | .opens t wronly signal =>
      if s.fault = none ∧ s.loaded t = none then
        some { s with
          dev := (scullOpen s.params s.dev wronly signal).2 }
      else none
  | .ioctl t cmd c =>
      if s.fault = none ∧ s.loaded t = none then
        some { s with
          params := (scullIoctl s.params cmd c).2 }
      else none

/-! ## Consistency -/

/-- Whoever is to execute a section has the geometry of the device. -/
def Consistent (s : Processes β ι) : Prop :=
  ∀ t g, s.loaded t = some g → g = s.dev.geometry

/-- A trim finds no call in flight that has loaded anything but the geometry
that it sets. -/
def TrimsMatch (s : Processes β ι) : Act β ι → Prop
  | .opens _ true false => ∀ t g, s.loaded t = some g → g = trimmedTo s.params
  | _ => True

omit [DecidableEq ι] in
theorem Transfer.geometry_eq {c : Transfer β} {quantum qset : Int}
    {dev : ScullDev β} {pos : Nat} {r : Section β}
    (h : c.section quantum qset dev pos = .ok r) :
    r.dev.geometry = dev.geometry := by
  cases c with
  | read c =>
      obtain ⟨hsame, -, -⟩ := scullRead_cases h
      exact Prod.ext hsame.quantum hsame.qset
  | write c =>
      obtain ⟨hquantum, hqset⟩ := (scullWrite_cases h).geometry_eq
      exact Prod.ext hquantum hqset

variable {s t : Processes β ι} {a : Act β ι}

/-- A section with what process `u` has loaded, and how it ends. -/
inductive Locked (s : Processes β ι) (u : ι) (pos : Nat) (c : Transfer β)
    (g : Int × Int) : Processes β ι → Prop where
  | returns (r : Section β) (hr : c.section g.1 g.2 s.dev pos = .ok r) :
      Locked s u pos c g
        ⟨r.dev, s.params, Function.update s.loaded u none, none⟩
  | faults (e : Fault) (he : c.section g.1 g.2 s.dev pos = .error e) :
      Locked s u pos c g ⟨s.dev, s.params, s.loaded, some e⟩

theorem Processes.step_locked {u : ι} {pos : Nat} {c : Transfer β}
    (h : s.step (.locked u pos c) = some t) :
    ∃ g, s.loaded u = some g ∧ Locked s u pos c g t := by
  rw [step] at h
  split at h
  · cases h
  next g hg =>
  obtain ⟨-, h⟩ := Option.ite_none_right_eq_some.mp h
  refine ⟨g, hg, ?_⟩
  split at h
  · next r hr =>
      cases h
      exact .returns r hr
  · next e he =>
      cases h
      exact .faults e he

theorem Processes.step_opens {u : ι} {wronly signal : Bool}
    (h : s.step (.opens u wronly signal) = some t) :
    t = { s with dev := (scullOpen s.params s.dev wronly signal).2 } :=
  (Option.some.inj (Option.ite_none_right_eq_some.mp h).2).symm

theorem Processes.step_load {u : ι} (h : s.step (.load u) = some t) :
    t = { s with
      loaded := Function.update s.loaded u (some s.dev.geometry) } :=
  (Option.some.inj (Option.ite_none_right_eq_some.mp h).2).symm

theorem Processes.step_ioctl {u : ι} {cmd : Cmd} {c : IoctlCall}
    (h : s.step (.ioctl u cmd c) = some t) :
    t = { s with params := (scullIoctl s.params cmd c).2 } :=
  (Option.some.inj (Option.ite_none_right_eq_some.mp h).2).symm

/-- A new value at one process, an old one at the others. -/
theorem loaded_update {α : Type*} {f : ι → Option α} {u v : ι} {x : Option α}
    {g : α} (h : Function.update f u x v = some g) : x = some g ∨ f v = some g := by
  by_cases hv : v = u
  · rw [hv, Function.update_self] at h
    exact Or.inl h
  · rw [Function.update_of_ne hv] at h
    exact Or.inr h

theorem Consistent.step (hs : Consistent s) (hmatch : TrimsMatch s a)
    (h : s.step a = some t) : Consistent t := by
  cases a with
  | load u =>
      rw [Processes.step_load h]
      intro v g hg
      rcases loaded_update hg with hnew | hold
      · exact (Option.some.inj hnew).symm
      · exact hs v g hold
  | locked u pos c =>
      obtain ⟨g, -, hlocked⟩ := Processes.step_locked h
      cases hlocked with
      | faults e he => exact hs
      | returns r hr =>
          intro v g hg
          show g = r.dev.geometry
          rw [Transfer.geometry_eq hr]
          rcases loaded_update hg with hnew | hold
          · cases hnew
          · exact hs v g hold
  | opens u wronly signal =>
      rw [Processes.step_opens h]
      intro v g hg
      cases wronly with
      | false => exact hs v g hg
      | true =>
          cases signal with
          | true => exact hs v g hg
          | false => exact hmatch v g hg
  | ioctl u cmd c =>
      rw [Processes.step_ioctl h]
      exact hs

theorem trimsMatch_of_consistent (h : s.step a = some t)
    (ht : Consistent t) : TrimsMatch s a := by
  cases a with
  | load u => trivial
  | locked u pos c => trivial
  | ioctl u cmd c => trivial
  | opens u wronly signal =>
      cases wronly with
      | false => trivial
      | true =>
          cases signal with
          | true => trivial
          | false =>
              rw [Processes.step_opens h] at ht
              exact ht

/-! ## Bounds -/

/-- The section finds a quantum that is not negative. -/
def QuantumNonneg (s : Processes β ι) : Act β ι → Prop
  | .locked _ _ _ => 0 ≤ s.dev.quantum
  | _ => True

structure IsInt (n : Int) : Prop where
  le : -2 ^ 31 ≤ n
  lt : n < 2 ^ 31

/-- The geometry that is set next. -/
structure Ints (p : Params) : Prop where
  quantum : IsInt p.scull_quantum
  qset : IsInt p.scull_qset

structure Processes.Inv (s : Processes β ι) : Prop where
  consistent : Consistent s
  fits : s.dev.Fits
  params : Ints s.params
  inside : s.fault ≠ some .outOfBounds

theorem isInt_intOf (n : Int) : IsInt (intOf n) :=
  ⟨(intOf_bounds n).1, (intOf_bounds n).2⟩

theorem isInt_zero : IsInt 0 := ⟨by decide, by decide⟩

/-- A parameter keeps its value or gets that of some `int`. -/
theorem isInt_paramIoctl (put : IoctlCall → Answer) {c : IoctlCall}
    {param : Int} (h : IsInt param) (v : Verb) :
    IsInt (paramIoctl put c param v).2 := by
  have hcapable (answer answer' : Answer) (n : Int) (hn : IsInt n) :
      IsInt (if ¬ c.capable then (answer, param) else (answer', n)).2 := by
    split
    · exact h
    · exact hn
  cases v with
  | T => exact hcapable _ _ _ (isInt_intOf c.arg)
  | G => exact h
  | Q => exact h
  | H => exact hcapable _ _ _ (isInt_intOf c.arg)
  | _ =>
      -- what user space has, if it can be read
      rw [paramIoctl]
      split
      · exact h
      split
      · exact isInt_intOf _
      · exact isInt_zero

theorem ints_scullIoctl {p : Params} (h : Ints p) (cmd : Cmd)
    (c : IoctlCall) : Ints (scullIoctl p cmd c).2 := by
  unfold scullIoctl
  split
  · exact h
  cases cmd with
  | reset =>
      have hquantum : IsInt SCULL_QUANTUM := ⟨by decide, by decide⟩
      have hqset : IsInt SCULL_QSET := ⟨by decide, by decide⟩
      exact ⟨hquantum, hqset⟩
  | quantum v => exact ⟨isInt_paramIoctl _ h.quantum v, h.qset⟩
  | qset v => exact ⟨h.quantum, isInt_paramIoctl _ h.qset v⟩
  | pTSize =>
      have hset (n : Int) : Ints { p with scull_p_buffer := n } :=
        ⟨h.quantum, h.qset⟩
      exact hset (intOf c.arg)
  | pQSize => exact h

omit [DecidableEq ι] in
/-- A section with the present geometry stays inside of what it finds. -/
theorem Transfer.inside {dev : ScullDev β} (h : dev.Fits)
    (hq : 0 ≤ dev.quantum) (c : Transfer β) (pos : Nat) :
    (∃ r, c.section dev.quantum dev.qset dev pos = .ok r ∧ r.dev.Fits) ∨
      c.section dev.quantum dev.qset dev pos = .error .divideError := by
  cases c with
  | read c => exact (scullRead_ok h hq c pos).imp_right And.right
  | write c => exact (scullWrite_ok h hq c pos).imp_right And.right

omit [DecidableEq ι] in
theorem Processes.Inv.fits_trim (h : s.Inv) (dev : ScullDev β) :
    (scullTrim s.params dev).Fits :=
  ⟨fun _ hd => absurd hd List.not_mem_nil, h.params.quantum.lt, h.params.qset.le⟩

theorem Processes.Inv.step (hs : s.Inv) (hmatch : TrimsMatch s a)
    (hnonneg : QuantumNonneg s a) (h : s.step a = some t) : t.Inv := by
  have hconsistent := hs.consistent.step hmatch h
  cases a with
  | load u =>
      rw [step_load h] at hconsistent ⊢
      exact ⟨hconsistent, hs.fits, hs.params, hs.inside⟩
  | locked u pos c =>
      obtain ⟨g, hg, hlocked⟩ := step_locked h
      have hgeo : g = (s.dev.quantum, s.dev.qset) := hs.consistent u g hg
      subst hgeo
      have hends := Transfer.inside hs.fits hnonneg c pos
      cases hlocked with
      | returns r hr =>
          obtain ⟨r', hr', hfits⟩ | herror := hends
          · rw [hr] at hr'
            cases hr'
            exact ⟨hconsistent, hfits, hs.params, nofun⟩
          · rw [hr] at herror
            cases herror
      | faults e he =>
          obtain ⟨r', hr', -⟩ | herror := hends
          · rw [he] at hr'
            cases hr'
          · rw [he] at herror
            cases herror
            exact ⟨hconsistent, hs.fits, hs.params, nofun⟩
  | opens u wronly signal =>
      rw [step_opens h] at hconsistent ⊢
      refine ⟨hconsistent, ?_, hs.params, hs.inside⟩
      rw [scullOpen]
      split
      · split
        · exact hs.fits
        · exact hs.fits_trim s.dev
      · exact hs.fits
  | ioctl u cmd c =>
      rw [step_ioctl h] at hconsistent ⊢
      exact ⟨hconsistent, hs.fits, ints_scullIoctl hs.params cmd c, hs.inside⟩

omit [DecidableEq ι] in
theorem consistent_init (p : Params) :
    Consistent (Processes.init p : Processes β ι) :=
  fun _ _ hg => nomatch hg

omit [DecidableEq ι] in
theorem Processes.inv_init {p : Params} (hp : Ints p) :
    (init p : Processes β ι).Inv :=
  ⟨consistent_init p,
    ⟨fun _ hd => absurd hd List.not_mem_nil, hp.quantum.lt, hp.qset.le⟩, hp,
    nofun⟩

/-- In every interleaving: the calls in flight always have the geometry of the
device if and only if each trim sets what they have loaded; and then, if no
section finds a negative quantum, all accesses are inside their blocks. -/
theorem geometry_consistent_iff (p : Params) (hp : Ints p)
    (acts : List (Act β ι)) :
    (Always Processes.step Consistent (Processes.init p) acts ↔
        Along Processes.step TrimsMatch (Processes.init p) acts) ∧
      (Along Processes.step (fun s a => TrimsMatch s a ∧ QuantumNonneg s a)
          (Processes.init p) acts →
        Always Processes.step
          (fun s => Consistent s ∧ s.fault ≠ some .outOfBounds)
          (Processes.init p) acts) := by
  constructor
  · exact always_iff_along (fun _ h => h)
      (fun _ _ _ hs hmatch h => hs.step hmatch h)
      (fun _ _ _ _ h ht => trimsMatch_of_consistent h ht) (consistent_init p)
  · exact always_of_along (fun _ h => ⟨h.consistent, h.inside⟩)
      (fun _ _ _ hs hG h => hs.step hG.1 hG.2 h)
      (Processes.inv_init hp)

/-! Process `false` loads a geometry, `true` trims the device to smaller
quanta and writes to it, and then `false` writes. -/

def telling (arg : Nat) : IoctlCall := ⟨arg, true, true, none, true⟩

def writing (buf : List UInt8) : Transfer UInt8 :=
  .write ⟨buf, false, none, [true, true, true], fun _ => 0⟩

def trimBetween : List (Act UInt8 Bool) :=
  [ .load false, .ioctl true (.quantum .T) (telling 4), .opens true true false,
    .load true, .locked true 0 (writing [1]),
    .locked false 0 (writing [1, 2, 3, 4, 5]) ]

/-- Five bytes go into a quantum of four. -/
theorem trimBetween_leaves :
    (exec Processes.step (Processes.init ⟨4000, 1000, 4000⟩)
        trimBetween).map Processes.fault = some (some .outOfBounds) ∧
      ¬ Always Processes.step
        (fun s => Consistent s ∧ s.fault ≠ some .outOfBounds)
        (Processes.init ⟨4000, 1000, 4000⟩) trimBetween := by
  have hrun : (exec Processes.step (Processes.init ⟨4000, 1000, 4000⟩)
      trimBetween).map Processes.fault = some (some .outOfBounds) := by
    decide +kernel
  refine ⟨hrun, fun h => ?_⟩
  obtain ⟨s, hs, hfault⟩ := Option.map_eq_some_iff.mp hrun
  exact (h.last hs).2 hfault

/-- The same with no trim in between. -/
theorem geometry_consistent_iff_one :
    Always Processes.step
      (fun s => Consistent s ∧ s.fault ≠ some .outOfBounds)
      (Processes.init ⟨4000, 1000, 4000⟩ : Processes UInt8 Bool)
      [.load false, .locked false 0 (writing [1, 2, 3, 4, 5])] := by
  refine (geometry_consistent_iff ⟨4000, 1000, 4000⟩
    ⟨⟨by decide, by decide⟩, ⟨by decide, by decide⟩⟩ _).2 ?_
  refine along_cons.mpr fun s hs => ⟨⟨trivial, trivial⟩, ?_⟩
  cases hs
  refine along_cons.mpr fun t _ => ⟨⟨trivial, ?_⟩, trivial⟩
  show (0 : Int) ≤ 4000
  decide

end LearningLinux.ScullMem
