import LearningLinux.Lib.Ring
import LearningLinux.Lib.Threads

/-!
# `scull/pipe.c`

The circular buffer of a scullpipe device. `rp` and `wp` are offsets from
`buffer`, and `end` is the offset `buffersize`.

A call of `scull_p_read` or `scull_p_write` is one critical section under
`dev->lock`, or several: where it has to wait it gives the lock up, sleeps and
starts over. What is modelled is one such section, and a call that sleeps
comes back with another one. `copy_to_user` and `copy_from_user` may fail; the
latter then leaves anything in the cells it was to fill.
-/

namespace LearningLinux.Scull

open LearningLinux.Lib

/-- `struct scull_pipe`, without the wait queues and the lock. -/
structure ScullPipe where
  /-- `none` is `NULL`. -/
  buffer : Option (Nat → UInt8)
  buffersize : Nat
  rp : Nat
  wp : Nat
  nreaders : Int
  nwriters : Int

/-- What is stored at `buffer + i`. -/
def ScullPipe.mem (dev : ScullPipe) : Nat → UInt8 :=
  dev.buffer.getD fun _ => 0

/-- How a critical section ends: with the bytes it moved, with an error, or
because the call goes to sleep. -/
inductive Result where
  | moved (bytes : List UInt8)
  | eagain
  | efault
  | erestartsys
  | sleeps
deriving DecidableEq, Repr

/-- The value of an `int` as a `size_t`. -/
def sizeT (n : Int) : Nat := (n % 2 ^ 64).toNat

/-! ## Reading -/

/-- The arguments of `scull_p_read`, the flags of its file, and what happens
to it: a signal before it has the lock, a fault in `copy_to_user`. -/
structure ReadCall where
  count : Nat
  nonblock : Bool
  signal : Bool
  fault : Bool

/-- The `count` that `scull_p_read` arrives at. -/
def ScullPipe.readCount (dev : ScullPipe) (count : Nat) : Nat :=
  if dev.wp > dev.rp then min count (dev.wp - dev.rp)
  -- the write pointer has wrapped, return data up to dev->end
  else min count (dev.buffersize - dev.rp)

def ScullPipe.copyToUser (dev : ScullPipe) (count : Nat) : List UInt8 :=
  (List.range count).map fun k => dev.mem (dev.rp + k)

/-- A pointer is moved on, and back to the beginning if it meets `end`. -/
def ScullPipe.wrapped (dev : ScullPipe) (p : Nat) : Nat :=
  if p = dev.buffersize then 0 else p

def scullPRead (dev : ScullPipe) (c : ReadCall) : Result × ScullPipe :=
  if c.signal then (.erestartsys, dev)
  else if dev.rp = dev.wp then (if c.nonblock then .eagain else .sleeps, dev)
  else if c.fault then (.efault, dev)
  else
    (.moved (dev.copyToUser (dev.readCount c.count)),
      { dev with
        rp := dev.wrapped (dev.rp + dev.readCount c.count) })

/-! ## Writing -/

/-- How much space is free? -/
def ScullPipe.spacefree (dev : ScullPipe) : Int :=
  if dev.rp = dev.wp then dev.buffersize - 1
  else Int.tmod (dev.rp + dev.buffersize - dev.wp) dev.buffersize - 1

/-- The arguments of `scull_p_write`; `count` is the length of `buf`. If
`copy_from_user` fails, `fault` is what it leaves behind. -/
structure WriteCall where
  buf : List UInt8
  nonblock : Bool
  signal : Bool
  fault : Option (Nat → UInt8)

/-- The `count` that `scull_p_write` arrives at. -/
def ScullPipe.writeCount (dev : ScullPipe) (count : Nat) : Nat :=
  if dev.wp ≥ dev.rp then
    min (min count (sizeT dev.spacefree)) (dev.buffersize - dev.wp)
  -- the write pointer has wrapped, fill up to rp-1
  else min (min count (sizeT dev.spacefree)) (dev.rp - dev.wp - 1)

/-- `bytes` are stored at `wp`. -/
def ScullPipe.copyFromUser (dev : ScullPipe) (bytes : List UInt8) :
    ScullPipe :=
  { dev with
    buffer := dev.buffer.map fun mem => overlay mem dev.wp bytes }

def ScullPipe.advanceWp (dev : ScullPipe) (count : Nat) : ScullPipe :=
  { dev with
    wp := dev.wrapped (dev.wp + count) }

def scullPWrite (dev : ScullPipe) (c : WriteCall) : Result × ScullPipe :=
  if c.signal then (.erestartsys, dev)
  -- `scull_getwritespace`
  else if dev.spacefree = 0 then
    (if c.nonblock then .eagain else .sleeps, dev)
  else
    let count := dev.writeCount c.buf.length
    match c.fault with
    | some left => (.efault, dev.copyFromUser ((List.range count).map left))
    | none =>
        (.moved (c.buf.take count),
          (dev.copyFromUser (c.buf.take count)).advanceWp count)

/-! ## `scull_p_poll` -/

def POLLIN : UInt32 := 0x1
def POLLOUT : UInt32 := 0x4
def POLLRDNORM : UInt32 := 0x40
def POLLWRNORM : UInt32 := 0x100

def scullPPoll (dev : ScullPipe) : UInt32 :=
  let mask := if dev.rp ≠ dev.wp then POLLIN ||| POLLRDNORM else 0
  if dev.spacefree ≠ 0 then mask ||| (POLLOUT ||| POLLWRNORM) else mask

/-! ## Opening -/

/-- `f_mode`. -/
structure Mode where
  read : Bool
  write : Bool
deriving DecidableEq, Repr

/-- How an open ends. -/
inductive Opened where
  | ok
  | erestartsys
  | enomem
deriving DecidableEq, Repr

/-- An open: its mode, whether a signal keeps it from the lock, and what
`kmalloc` returns if it is called. -/
structure OpenCall where
  mode : Mode
  signal : Bool
  block : Option (Nat → UInt8)

def countIf (b : Bool) : Int := if b then 1 else 0

/-- The part of `scull_p_open` after the buffer is there. -/
def ScullPipe.opened (dev : ScullPipe) (scull_p_buffer : Nat) (mode : Mode) :
    ScullPipe :=
  { dev with
    buffersize := scull_p_buffer
    rp := 0
    wp := 0
    nreaders := dev.nreaders + countIf mode.read
    nwriters := dev.nwriters + countIf mode.write }

def scullPOpen (scull_p_buffer : Nat) (dev : ScullPipe) (c : OpenCall) :
    Opened × ScullPipe :=
  if c.signal then (.erestartsys, dev)
  else if dev.buffer.isSome then (.ok, dev.opened scull_p_buffer c.mode)
  else if c.block.isSome then
    (.ok, { dev with
      buffer := c.block }.opened scull_p_buffer c.mode)
  else (.enomem, dev)

/-- A file of this mode is no longer counted. -/
def ScullPipe.uncount (dev : ScullPipe) (mode : Mode) : ScullPipe :=
  { dev with
    nreaders := dev.nreaders - countIf mode.read
    nwriters := dev.nwriters - countIf mode.write }

def ScullPipe.kfree (dev : ScullPipe) : ScullPipe :=
  { dev with
    buffer := none }

def scullPRelease (dev : ScullPipe) (mode : Mode) : ScullPipe :=
  let dev := dev.uncount mode
  if dev.nreaders + dev.nwriters = 0 then dev.kfree else dev

/-! ## The bytes in the buffer -/

/-- The unread bytes, oldest first. -/
def ScullPipe.unread (dev : ScullPipe) : List UInt8 :=
  ringList dev.buffersize dev.mem dev.rp dev.wp

/-- The bytes `q` are in the buffer, and one cell is free. -/
structure ScullPipe.Holds (dev : ScullPipe) (q : List UInt8) : Prop where
  buffer : dev.buffer.isSome
  ring : Ring dev.buffersize dev.mem dev.rp dev.wp q
  room : q.length < dev.buffersize

variable {dev : ScullPipe} {q : List UInt8}

theorem ScullPipe.Holds.unread_eq (h : dev.Holds q) : dev.unread = q :=
  h.ring.eq_ringList h.room

theorem ScullPipe.Holds.wp_lt (h : dev.Holds q) : dev.wp < dev.buffersize := by
  rw [h.ring.fill_eq]
  exact Nat.mod_lt _ (Nat.zero_lt_of_lt h.room)

/-- Where the write pointer is: ahead of the read pointer, or wrapped. -/
theorem ScullPipe.Holds.wp_cases (h : dev.Holds q) :
    dev.wp = dev.rp + q.length ∨
      dev.wp + dev.buffersize = dev.rp + q.length := by
  have hrp := h.ring.use_lt
  have hroom := h.room
  by_cases hwrap : dev.rp + q.length < dev.buffersize
  · left
    rw [h.ring.fill_eq, Nat.mod_eq_of_lt hwrap]
  · right
    rw [h.ring.fill_eq, Nat.mod_eq_sub_mod (by omega),
      Nat.mod_eq_of_lt (by omega)]
    omega

/-- The pointers meet if nothing is unread. -/
theorem ScullPipe.Holds.rp_eq_wp (h : dev.Holds q) :
    dev.rp = dev.wp ↔ q.length = 0 := by
  have hrp := h.ring.use_lt
  have hroom := h.room
  rcases h.wp_cases with hwp | hwp <;> omega

theorem ScullPipe.Holds.spacefree_eq (h : dev.Holds q) :
    dev.spacefree = dev.buffersize - 1 - q.length := by
  have hroom := h.room
  have hmeet := h.rp_eq_wp
  rw [ScullPipe.spacefree]
  split
  · next heq =>
      have hzero := hmeet.mp heq
      omega
  · next hne =>
      have hpos : q.length ≠ 0 := mt hmeet.mpr hne
      have hmod : Int.tmod (dev.rp + dev.buffersize - dev.wp) dev.buffersize =
          dev.buffersize - q.length := by
        rw [Int.tmod_eq_emod_of_nonneg (by
          have hwp := h.wp_lt
          omega)]
        rcases h.wp_cases with hwp | hwp
        · have hdiff : (dev.rp + dev.buffersize - dev.wp : Int) =
              dev.buffersize - q.length := by omega
          rw [hdiff, Int.emod_eq_of_lt (by omega) (by omega)]
        · have hdiff : (dev.rp + dev.buffersize - dev.wp : Int) =
              dev.buffersize - q.length + dev.buffersize := by omega
          rw [hdiff, Int.add_emod_right,
            Int.emod_eq_of_lt (by omega) (by omega)]
      rw [hmod]
      omega

theorem sizeT_le {n : Int} (h : 0 ≤ n) : (sizeT n : Int) ≤ n := by
  rw [sizeT]
  omega

/-- A pointer that went as far as `end` at most. -/
theorem wrapped_eq {p : Nat} (h : p ≤ dev.buffersize) :
    dev.wrapped p = p % dev.buffersize := by
  rw [ScullPipe.wrapped]
  split
  · next heq => rw [heq, Nat.mod_self]
  · next hne => rw [Nat.mod_eq_of_lt (by omega)]

/-! ## The two operations on the queue -/

/-- The bytes that went from one side to the other. -/
def Result.bytes : Result → List UInt8
  | .moved bytes => bytes
  | _ => []

theorem ScullPipe.Holds.readCount_le (h : dev.Holds q)
    (hne : dev.rp ≠ dev.wp) (count : Nat) :
    dev.readCount count ≤ q.length ∧
      dev.rp + dev.readCount count ≤ dev.buffersize := by
  have hrp := h.ring.use_lt
  have hlt := h.wp_lt
  have hroom := h.room
  rw [ScullPipe.readCount]
  rcases h.wp_cases with hwp | hwp
  · split <;> omega
  · split <;> omega

theorem ScullPipe.Holds.writeCount_le (h : dev.Holds q) (count : Nat) :
    dev.writeCount count ≤ count ∧
      q.length + dev.writeCount count < dev.buffersize ∧
      dev.wp + dev.writeCount count ≤ dev.buffersize := by
  have hrp := h.ring.use_lt
  have hwp := h.wp_lt
  have hroom := h.room
  have hspace := sizeT_le (n := dev.spacefree) (by
    rw [h.spacefree_eq]
    omega)
  rw [h.spacefree_eq] at hspace
  rw [ScullPipe.writeCount, h.spacefree_eq]
  split <;> omega

theorem ScullPipe.Holds.read (h : dev.Holds q) (c : ReadCall) :
    ∃ q', q = (scullPRead dev c).1.bytes ++ q' ∧
      (scullPRead dev c).2.Holds q' := by
  rw [scullPRead]
  split
  · exact ⟨q, rfl, h⟩
  split
  · refine ⟨q, ?_, h⟩
    cases c.nonblock <;> rfl
  split
  · exact ⟨q, rfl, h⟩
  next hne _ =>
  obtain ⟨hlen, hend⟩ := h.readCount_le hne c.count
  have hbytes := h.ring.takeBlock hlen hend
  refine ⟨q.drop (dev.readCount c.count), ?_, h.buffer, ?_, ?_⟩
  · show q = dev.copyToUser _ ++ _
    rw [ScullPipe.copyToUser, hbytes, List.take_append_drop]
  · show Ring _ _ (dev.wrapped _) _ _
    have hring := h.ring
    rw [← List.take_append_drop (dev.readCount c.count) q] at hring
    have hpop := hring.popBlock
    rw [List.length_take_of_le hlen] at hpop
    rw [wrapped_eq hend]
    exact hpop
  · rw [List.length_drop]
    exact Nat.lt_of_le_of_lt (Nat.sub_le _ _) h.room

theorem ScullPipe.mem_copyFromUser (h : dev.buffer.isSome)
    (bytes : List UInt8) :
    (dev.copyFromUser bytes).mem = overlay dev.mem dev.wp bytes := by
  obtain ⟨mem, hmem⟩ := Option.isSome_iff_exists.mp h
  simp only [ScullPipe.mem, ScullPipe.copyFromUser, hmem, Option.map_some,
    Option.getD_some]

theorem ScullPipe.Holds.write (h : dev.Holds q) (c : WriteCall) :
    (scullPWrite dev c).2.Holds (q ++ (scullPWrite dev c).1.bytes) := by
  have hnil : q ++ [] = q := List.append_nil q
  rw [scullPWrite]
  split
  · exact hnil.symm ▸ h
  split
  · cases c.nonblock <;> exact hnil.symm ▸ h
  obtain ⟨hcount, hroom, hend⟩ := h.writeCount_le c.buf.length
  cases c.fault with
  | some left =>
      show (dev.copyFromUser _).Holds (q ++ [])
      rw [hnil]
      refine ⟨by simpa [ScullPipe.copyFromUser] using h.buffer, ?_, h.room⟩
      show Ring dev.buffersize (dev.copyFromUser _).mem dev.rp dev.wp q
      rw [ScullPipe.mem_copyFromUser h.buffer]
      have hlen : ((List.range (dev.writeCount c.buf.length)).map
          left).length = dev.writeCount c.buf.length := by simp
      exact h.ring.overlay _ (by omega) (by omega)
  | none =>
      show ((dev.copyFromUser _).advanceWp _).Holds (q ++ List.take _ _)
      have hlen : (c.buf.take (dev.writeCount c.buf.length)).length =
          dev.writeCount c.buf.length := List.length_take_of_le hcount
      refine ⟨by simpa [ScullPipe.copyFromUser, ScullPipe.advanceWp]
        using h.buffer, ?_, ?_⟩
      · show Ring dev.buffersize (dev.copyFromUser _).mem dev.rp
          (dev.wrapped (dev.wp + dev.writeCount c.buf.length)) _
        rw [ScullPipe.mem_copyFromUser h.buffer, wrapped_eq hend]
        have hpush := h.ring.pushBlock
          (c.buf.take (dev.writeCount c.buf.length)) (by omega) (by omega)
        rw [hlen] at hpush
        exact hpush
      · rw [List.length_append, hlen]
        exact hroom

/-! ## Traffic -/

/-- The device with what writers gave and readers got. -/
structure Traffic where
  dev : ScullPipe
  accepted : List UInt8
  returned : List UInt8

inductive Call where
  | read (c : ReadCall)
  | write (c : WriteCall)

/-- What a call returns and leaves behind. -/
def Call.run (dev : ScullPipe) : Call → Result × ScullPipe
  | .read c => scullPRead dev c
  | .write c => scullPWrite dev c

def Traffic.call (s : Traffic) : Call → Option Traffic
  | .read c =>
      some ⟨(scullPRead s.dev c).2, s.accepted,
        s.returned ++ (scullPRead s.dev c).1.bytes⟩
  | .write c =>
      some ⟨(scullPWrite s.dev c).2,
        s.accepted ++ (scullPWrite s.dev c).1.bytes, s.returned⟩

/-- What was accepted is what was returned and what is in the buffer. -/
structure Traffic.Inv (n : Nat) (s : Traffic) : Prop where
  size : s.dev.buffersize = n
  holds : ∃ q, s.accepted = s.returned ++ q ∧ s.dev.Holds q

variable {n : Nat} {s t : Traffic}

theorem scullPRead_buffersize (c : ReadCall) :
    (scullPRead dev c).2.buffersize = dev.buffersize := by
  rw [scullPRead]
  split_ifs <;> rfl

theorem scullPWrite_buffersize (c : WriteCall) :
    (scullPWrite dev c).2.buffersize = dev.buffersize := by
  rw [scullPWrite]
  split
  · rfl
  split
  · rfl
  · cases c.fault <;> rfl

theorem Traffic.Inv.call (h : s.Inv n) {c : Call} (hc : s.call c = some t) :
    t.Inv n := by
  obtain ⟨q, hacc, hq⟩ := h.holds
  cases c with
  | read c =>
      cases hc
      obtain ⟨q', hq', hrest⟩ := hq.read c
      refine ⟨(scullPRead_buffersize c).trans h.size, q', ?_, hrest⟩
      show s.accepted = (s.returned ++ _) ++ q'
      rw [hacc, hq', List.append_assoc]
  | write c =>
      cases hc
      refine ⟨(scullPWrite_buffersize c).trans h.size, _, ?_, hq.write c⟩
      show s.accepted ++ _ = s.returned ++ _
      rw [hacc, List.append_assoc]

/-- A device that was just opened. -/
theorem holds_opened {scull_p_buffer : Nat} {mode : Mode}
    (hbuf : dev.buffer.isSome) (hpos : 0 < scull_p_buffer) :
    (dev.opened scull_p_buffer mode).Holds [] :=
  ⟨hbuf, ring_nil hpos, hpos⟩

theorem scullPOpen_ok {scull_p_buffer : Nat} {c : OpenCall}
    {dev' : ScullPipe} (h : scullPOpen scull_p_buffer dev c = (.ok, dev')) :
    ∃ dev₀ : ScullPipe, dev₀.buffer.isSome ∧
      dev₀.nreaders = dev.nreaders ∧ dev₀.nwriters = dev.nwriters ∧
      dev' = dev₀.opened scull_p_buffer c.mode := by
  rw [scullPOpen] at h
  split at h
  · cases h
  split at h
  · next hbuf =>
      cases h
      exact ⟨dev, hbuf, rfl, rfl, rfl⟩
  split at h
  · next hblock =>
      cases h
      exact ⟨{ dev with
        buffer := c.block }, hblock, rfl, rfl, rfl⟩
  · cases h

/-! ## The device is a queue -/

/-- The pipe in one state: where the pointers are, what is unread, and what
the next call may answer. -/
structure Fifo (s : Traffic) : Prop where
  rp_lt : s.dev.rp < s.dev.buffersize
  wp_lt : s.dev.wp < s.dev.buffersize
  returned : s.returned <+: s.accepted
  unread : s.dev.unread = s.accepted.drop s.returned.length
  spacefree : s.dev.spacefree =
    s.dev.buffersize - 1 - (s.accepted.length - s.returned.length)
  failing : ∀ c : Call,
    (c.run s.dev).1 = .eagain ∨ (c.run s.dev).1 = .efault →
      (c.run s.dev).2.unread = s.dev.unread
  readable : ∀ c : ReadCall, c.nonblock = true → c.signal = false →
    ((scullPRead s.dev c).1 ≠ .eagain ↔
      scullPPoll s.dev &&& (POLLIN ||| POLLRDNORM) ≠ 0)
  writable : ∀ c : WriteCall, c.nonblock = true → c.signal = false →
    ((scullPWrite s.dev c).1 ≠ .eagain ↔
      scullPPoll s.dev &&& (POLLOUT ||| POLLWRNORM) ≠ 0)

/-- A call that fails takes no byte and adds none. -/
theorem ScullPipe.Holds.failing (h : dev.Holds q) (c : Call)
    (hc : (c.run dev).1 = .eagain ∨ (c.run dev).1 = .efault) :
    (c.run dev).2.unread = dev.unread := by
  have hnone : (c.run dev).1.bytes = [] := by
    rcases hc with hc | hc <;> rw [hc] <;> rfl
  rw [h.unread_eq]
  cases c with
  | read c =>
      obtain ⟨q', hq', hrest⟩ := h.read c
      rw [show (scullPRead dev c).1.bytes = [] from hnone] at hq'
      exact hrest.unread_eq.trans hq'.symm
  | write c =>
      have hrest := h.write c
      rw [show (scullPWrite dev c).1.bytes = [] from hnone,
        List.append_nil] at hrest
      exact hrest.unread_eq

theorem read_eagain_iff {c : ReadCall} (hn : c.nonblock = true)
    (hs : c.signal = false) :
    (scullPRead dev c).1 ≠ .eagain ↔ dev.rp ≠ dev.wp := by
  rw [scullPRead, hn, hs]
  by_cases h : dev.rp = dev.wp
  · simp [h]
  · cases c.fault <;> simp [h]

theorem write_eagain_iff {c : WriteCall} (hn : c.nonblock = true)
    (hs : c.signal = false) :
    (scullPWrite dev c).1 ≠ .eagain ↔ dev.spacefree ≠ 0 := by
  rw [scullPWrite, hn, hs]
  by_cases h : dev.spacefree = 0
  · simp [h]
  · cases c.fault <;> simp [h]

theorem poll_readable : scullPPoll dev &&& (POLLIN ||| POLLRDNORM) ≠ 0 ↔
    dev.rp ≠ dev.wp := by
  rw [scullPPoll]
  by_cases hr : dev.rp = dev.wp <;> by_cases hw : dev.spacefree = 0 <;>
    simp only [hr, hw, ne_eq, not_true_eq_false, not_false_eq_true, if_true,
      if_false] <;>
    decide

theorem poll_writable : scullPPoll dev &&& (POLLOUT ||| POLLWRNORM) ≠ 0 ↔
    dev.spacefree ≠ 0 := by
  rw [scullPPoll]
  by_cases hr : dev.rp = dev.wp <;> by_cases hw : dev.spacefree = 0 <;>
    simp only [hr, hw, ne_eq, not_true_eq_false, not_false_eq_true, if_true,
      if_false] <;>
    decide

theorem Traffic.Inv.fifo (h : s.Inv n) : Fifo s := by
  obtain ⟨q, hacc, hq⟩ := h.holds
  refine ⟨hq.ring.use_lt, hq.wp_lt, ?_, ?_, ?_, hq.failing, ?_, ?_⟩
  · rw [hacc]
    exact List.prefix_append _ _
  · rw [hq.unread_eq, hacc, List.drop_left]
  · rw [hq.spacefree_eq, hacc, List.length_append]
    omega
  · intro c hn hs
    rw [read_eagain_iff hn hs, poll_readable]
  · intro c hn hs
    rw [write_eagain_iff hn hs, poll_writable]

/-- After an open, whatever is read and written, the pipe is a queue. -/
theorem scullpipe_fifo {scull_p_buffer : Nat} (hsize : 2 ≤ scull_p_buffer)
    {dev dev' : ScullPipe} {c : OpenCall}
    (hopen : scullPOpen scull_p_buffer dev c = (.ok, dev'))
    {calls : List Call}
    (hrun : exec Traffic.call ⟨dev', [], []⟩ calls = some s) :
    s.dev.buffersize = scull_p_buffer ∧ Fifo s := by
  obtain ⟨dev₀, hbuf, -, -, rfl⟩ := scullPOpen_ok hopen
  have hstart : Traffic.Inv scull_p_buffer
      ⟨dev₀.opened scull_p_buffer c.mode, [], []⟩ :=
    ⟨rfl, [], rfl, holds_opened hbuf (by omega)⟩
  have hinv := exec_inv (fun _ _ _ h hc => h.call hc) hstart hrun
  exact ⟨hinv.size, hinv.fifo⟩

/-- A device before its first open. -/
def closedPipe : ScullPipe := ⟨none, 0, 0, 0, 0, 0⟩

def openCall (mode : Mode) : OpenCall := ⟨mode, false, some fun _ => 0⟩

/-- The buffer fills up, is read in part, fails to take a byte and takes two,
round its end. -/
def roundTheEnd : List Call :=
  [ .write ⟨[1, 2, 3, 4], true, false, none⟩, .read ⟨2, true, false, false⟩,
    .write ⟨[5], true, false, some fun _ => 9⟩,
    .write ⟨[5, 6], true, false, none⟩, .write ⟨[6], true, false, none⟩ ]

/-- The device after an open. -/
def openPipe : ScullPipe :=
  (scullPOpen 4 closedPipe (openCall ⟨true, true⟩)).2

theorem scullpipe_fifo_round : ∃ s,
    exec Traffic.call ⟨openPipe, [], []⟩ roundTheEnd = some s ∧
      s.accepted = [1, 2, 3, 5, 6] ∧ s.returned = [1, 2] ∧
      s.dev.buffersize = 4 ∧ Fifo s := by
  have hrun : (exec Traffic.call ⟨openPipe, [], []⟩ roundTheEnd).map
      (fun s => (s.accepted, s.returned)) =
        some ([1, 2, 3, 5, 6], [1, 2]) := by
    decide +kernel
  obtain ⟨s, hs, hres⟩ := Option.map_eq_some_iff.mp hrun
  simp only [Prod.mk.injEq] at hres
  have hopen : scullPOpen 4 closedPipe (openCall ⟨true, true⟩) =
      (.ok, openPipe) := rfl
  exact ⟨s, hs, hres.1, hres.2, scullpipe_fifo (by decide) hopen hs⟩

end LearningLinux.Scull
