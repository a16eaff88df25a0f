import LearningLinux.Scull.Ioctl
import LearningLinux.Scull.Sessions

/-!
# The size of a scullpipe and the size of its memory

`scull_p_open` allocates the buffer when there is none, but takes the size
from `scull_p_buffer` every time, and `SCULL_P_IOCTSIZE` may have changed the
parameter since the buffer was allocated. The main result is that this is the
only way out of the allocation: the buffer stays inside its memory as long as
no open finds a buffer that is smaller than the parameter.
-/

namespace LearningLinux.Scull

open LearningLinux.Lib

/-- A session with the parameter, and with the size that `kmalloc` was asked
for when the buffer was allocated. -/
structure Sized where
  session : Session
  params : Params
  allocated : Nat

def Sized.dev (s : Sized) : ScullPipe := s.session.pipe.dev

/-- The state that `scull_p_init` leaves, with the size given at load time. -/
def Sized.init (scull_p_buffer : Nat) : Sized :=
  ⟨Session.init, ⟨SCULL_QUANTUM, SCULL_QSET, scull_p_buffer⟩, 0⟩

/-- A file operation, or the `ioctl` that sets the size. -/
inductive SizedOp where
  | op (op : Op)
  | ioctl (c : IoctlCall)

/-- The size of the memory: an open that finds none asks for new memory. -/
def Sized.allocation (s : Sized) : Op → Nat
  | .opens _ =>
      if s.dev.buffer.isSome then s.allocated
      else s.params.scull_p_buffer.toNat
  | _ => s.allocated

/-- The `ioctl` is called with sizes that are positive as an `int`. -/
def Sized.step (s : Sized) : SizedOp → Option Sized
  | .op op =>
      (s.session.step s.params.scull_p_buffer.toNat op).map fun session =>
        ⟨session, s.params, s.allocation op⟩
  | .ioctl c =>
      let params := (scullIoctl s.params .pTSize c).2
      if 0 < params.scull_p_buffer then some { s with params := params }
      else none

/-- The buffer lies inside its memory, and so does whatever a read or a write
copies. -/
structure Inside (s : Sized) : Prop where
  buffer : s.dev.buffersize ≤ s.allocated
  read : ∀ count, s.dev.rp ≠ s.dev.wp →
    s.dev.rp + s.dev.readCount count ≤ s.allocated
  write : ∀ count, s.dev.spacefree ≠ 0 →
    s.dev.wp + s.dev.writeCount count ≤ s.allocated

def StaysInside (s : Sized) : Prop := s.dev.buffer.isSome → Inside s

/-- An open that finds a buffer finds one that is large enough. -/
def FindsRoom (s : Sized) : SizedOp → Prop
  | .op (.opens c) => c.signal = false → s.dev.buffer.isSome →
      s.params.scull_p_buffer ≤ s.allocated
  | _ => True

/-! ## The queue in the buffer -/

variable {dev : ScullPipe} {q : List UInt8}

theorem ScullPipe.Has.run (h : dev.Has q) (c : Call) :
    ∃ q', (c.run dev).2.Has q' := by
  have hacc : q = [] ++ q := rfl
  cases c with
  | read c =>
      obtain ⟨q', -, hq'⟩ :=
        ScullPipe.Has.call (s := ⟨dev, q, []⟩) h hacc (c := .read c) rfl
      exact ⟨q', hq'⟩
  | write c =>
      obtain ⟨q', -, hq'⟩ :=
        ScullPipe.Has.call (s := ⟨dev, q, []⟩) h hacc (c := .write c) rfl
      exact ⟨q', hq'⟩

theorem call_dev {s t : Traffic} {c : Call} (hc : s.call c = some t) :
    t.dev = (c.run s.dev).2 := by
  cases c with
  | read c => cases hc; rfl
  | write c => cases hc; rfl

theorem run_buffersize (c : Call) :
    (c.run dev).2.buffersize = dev.buffersize := by
  cases c with
  | read c => exact scullPRead_buffersize c
  | write c => exact scullPWrite_buffersize c

/-- What is copied lies between `buffer` and `end`. -/
theorem ScullPipe.Has.readCount_le (h : dev.Has q) (hne : dev.rp ≠ dev.wp)
    (count : Nat) : dev.rp + dev.readCount count ≤ dev.buffersize := by
  rcases h with h | ⟨h, -⟩
  · exact (h.readCount_le hne count).2
  · exact absurd (h.rp.trans h.wp.symm) hne

theorem ScullPipe.Has.writeCount_le (h : dev.Has q) (count : Nat) :
    dev.wp + dev.writeCount count ≤ dev.buffersize := by
  rcases h with h | ⟨h, -⟩
  · exact (h.writeCount_le count).2.2
  · rw [h.writeCount, h.wp]
    exact Nat.zero_le _

/-! ## Runs -/

structure Sized.Inv (s : Sized) : Prop where
  counted : s.session.Counted
  used : s.dev.InUse → s.dev.buffer.isSome
  queue : s.dev.buffer.isSome → ∃ q, s.dev.Has q
  fits : s.dev.buffer.isSome → s.dev.buffersize ≤ s.allocated

variable {s t : Sized}

theorem Sized.inv_init (n : Nat) : (Sized.init n).Inv where
  counted := ⟨rfl, rfl⟩
  used := fun h => absurd h (Int.lt_irrefl 0)
  queue := nofun
  fits := nofun

theorem Sized.Inv.staysInside (h : s.Inv) : StaysInside s := by
  intro hbuf
  obtain ⟨q, hq⟩ := h.queue hbuf
  have hfits := h.fits hbuf
  refine ⟨hfits, fun count hne => ?_, fun count _ => ?_⟩
  · exact (hq.readCount_le hne count).trans hfits
  · exact (hq.writeCount_le count).trans hfits

theorem Sized.Inv.ioctl (h : s.Inv) (params : Params) :
    Sized.Inv { s with params := params } :=
  ⟨h.counted, h.used, h.queue, h.fits⟩

theorem Sized.Inv.opens (h : s.Inv) {c : OpenCall}
    (hroom : FindsRoom s (.op (.opens c))) :
    Sized.Inv ⟨s.session.opens s.params.scull_p_buffer.toNat c, s.params,
      s.allocation (.opens c)⟩ := by
  have hcounted := h.counted.opens (n := s.params.scull_p_buffer.toNat) c
  rcases Session.opens_cases s.params.scull_p_buffer.toNat s.session c with
    hsame | ⟨hsignal, hok⟩
  · -- nothing changes, and without a buffer the size does not matter
    rw [hsame]
    refine ⟨h.counted, h.used, h.queue, fun hbuf => ?_⟩
    change s.dev.buffer.isSome at hbuf
    show s.dev.buffersize ≤ s.allocation (.opens c)
    rw [Sized.allocation, if_pos hbuf]
    exact h.fits hbuf
  obtain ⟨dev₀, hbuf, -, -, heq⟩ := Session.opens_ok hok
  rw [heq] at hcounted ⊢
  refine ⟨hcounted, fun _ => hbuf, fun _ => ⟨[], has_opened hbuf⟩, ?_⟩
  intro _
  show s.params.scull_p_buffer.toNat ≤ s.allocation (.opens c)
  rw [Sized.allocation]
  split
  · next hbefore =>
      have hle := hroom hsignal hbefore
      omega
  · exact le_refl _

theorem Sized.Inv.call (h : s.Inv) {n i : Nat} {c : Call} {session : Session}
    (hs : s.session.step n (.call i c) = some session) :
    Sized.Inv ⟨session, s.params, s.allocated⟩ := by
  have hcounted := h.counted.step hs
  obtain ⟨mode, pipe, hfile, hallow, hpipe, rfl⟩ := Session.call_cases hs
  have hbuf := h.used (h.counted.inUse hfile hallow)
  obtain ⟨q, hq⟩ := h.queue hbuf
  obtain ⟨q', hq'⟩ := hq.run c
  have hdev : Sized.dev ⟨⟨pipe, s.session.files⟩, s.params, s.allocated⟩ =
      (c.run s.dev).2 := call_dev hpipe
  refine ⟨hcounted, ?_, ?_, ?_⟩
  · intro _
    rw [hdev]
    exact hq'.buffer
  · intro _
    rw [hdev]
    exact ⟨q', hq'⟩
  · intro _
    rw [hdev, run_buffersize]
    exact h.fits hbuf

theorem Sized.Inv.release (h : s.Inv) {i : Nat} {mode : Mode}
    (hfile : s.session.files[i]? = some mode) :
    Sized.Inv ⟨s.session.release i mode, s.params, s.allocated⟩ := by
  have hdev : Sized.dev ⟨s.session.release i mode, s.params, s.allocated⟩ =
      scullPRelease s.dev mode := (s.session.release_dev i mode).1
  have hcases : scullPRelease s.dev mode = s.dev.uncount mode ∨
      (scullPRelease s.dev mode).buffer = none := by
    rw [scullPRelease]
    split
    · exact Or.inr rfl
    · exact Or.inl rfl
  refine ⟨h.counted.release hfile, ?_, ?_, ?_⟩
  · rw [hdev]
    intro huse
    rw [release_inUse huse]
    exact h.used (inUse_of_release huse)
  · rw [hdev]
    intro hbuf
    rcases hcases with heq | hnone
    · rw [heq] at hbuf ⊢
      obtain ⟨q, hq⟩ := h.queue hbuf
      exact ⟨q, hq.uncount mode⟩
    · rw [hnone] at hbuf
      cases hbuf
  · rw [hdev]
    intro hbuf
    rcases hcases with heq | hnone
    · rw [heq] at hbuf ⊢
      exact h.fits hbuf
    · rw [hnone] at hbuf
      cases hbuf

theorem Sized.Inv.step (h : s.Inv) {op : SizedOp} (hroom : FindsRoom s op)
    (hs : s.step op = some t) : t.Inv := by
  cases op with
  | ioctl c =>
      rw [Sized.step] at hs
      obtain ⟨-, ht⟩ := Option.ite_none_right_eq_some.mp hs
      rw [← Option.some.inj ht]
      exact h.ioctl _
  | op op =>
      rw [Sized.step] at hs
      obtain ⟨session, hsession, rfl⟩ := Option.map_eq_some_iff.mp hs
      cases op with
      | opens c =>
          cases hsession
          exact h.opens hroom
      | call i c => exact h.call hsession
      | release i =>
          obtain ⟨mode, hfile, rfl⟩ := Option.map_eq_some_iff.mp hsession
          exact h.release hfile

/-- An open that finds too small a buffer puts `end` behind its memory. -/
theorem findsRoom_of_inside {op : SizedOp} (hs : s.step op = some t)
    (hinside : StaysInside t) : FindsRoom s op := by
  cases op with
  | ioctl c => trivial
  | op op =>
    cases op with
    | call i c => trivial
    | release i => trivial
    | opens c =>
        intro hsignal hbefore
        rw [Sized.step] at hs
        obtain ⟨session, hsession, rfl⟩ := Option.map_eq_some_iff.mp hs
        cases hsession
        have hok : (scullPOpen s.params.scull_p_buffer.toNat
            s.session.pipe.dev c).1 = .ok := by
          rw [scullPOpen, hsignal, show s.session.pipe.dev.buffer.isSome =
            true from hbefore]
          rfl
        obtain ⟨dev₀, hbuf, -, -, heq⟩ := Session.opens_ok hok
        rw [heq] at hinside
        have hle : s.params.scull_p_buffer.toNat ≤ s.allocation (.opens c) :=
          (hinside hbuf).buffer
        rw [Sized.allocation, if_pos hbefore] at hle
        omega

/-- Every run of opens, releases, reads, writes and changes of the size keeps
the buffer and all copies inside the allocated memory, if and only if no open
finds a buffer that is smaller than the parameter. -/
theorem scullpipe_inside_iff (scull_p_buffer : Nat) (ops : List SizedOp) :
    Always Sized.step StaysInside (Sized.init scull_p_buffer) ops ↔
      Along Sized.step FindsRoom (Sized.init scull_p_buffer) ops :=
  always_iff_along (fun _ h => h.staysInside)
    (fun _ _ _ h hroom hs => h.step hroom hs)
    (fun _ _ _ _ hs hinside => findsRoom_of_inside hs hinside)
    (Sized.inv_init scull_p_buffer)

def tell (arg : Nat) : IoctlCall := ⟨arg, true, true, none, true⟩

/-- The size is doubled between two opens. -/
def growBetween : List SizedOp :=
  [ .op (.opens (openCall ⟨false, true⟩)), .ioctl (tell 8000),
    .op (.opens (openCall ⟨false, true⟩)) ]

/-- A write of 5000 bytes then copies 1000 of them behind the 4000 that were
allocated. -/
theorem grow_between_leaves : ∃ s,
    exec Sized.step (Sized.init 4000) growBetween = some s ∧
      s.dev.buffer.isSome ∧ s.allocated = 4000 ∧ s.dev.buffersize = 8000 ∧
      s.dev.wp + s.dev.writeCount 5000 = 5000 ∧ ¬ StaysInside s := by
  have hrun : (exec Sized.step (Sized.init 4000) growBetween).map
      (fun s => (s.dev.buffer.isSome, s.allocated, s.dev.buffersize,
        s.dev.wp + s.dev.writeCount 5000)) =
      some (true, 4000, 8000, 5000) := by
    decide +kernel
  obtain ⟨s, hs, hres⟩ := Option.map_eq_some_iff.mp hrun
  simp only [Prod.mk.injEq] at hres
  obtain ⟨hbuf, halloc, hsize, hcopy⟩ := hres
  refine ⟨s, hs, hbuf, halloc, hsize, hcopy, ?_⟩
  intro hinside
  have hle := (hinside hbuf).buffer
  omega

end LearningLinux.Scull
