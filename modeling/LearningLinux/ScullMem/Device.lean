import LearningLinux.Lib.Ring
import LearningLinux.Scull.Ioctl
import LearningLinux.Scull.Pipe

/-!
# `scull/main.c`

The bare device: a list of items, each with an array of pointers to quanta.
The list is a list, a missing item is one that has not been appended, and an
array or a quantum is a block with the size that `kmalloc` was asked for. The
bytes are of any type, since nothing here looks at them.

What a call finds outside is part of the call: a signal before it has the
lock, a fault in `copy_to_user` or `copy_from_user`, which of its `kmalloc`s
fail, and what is in the quantum that it allocates. A `copy_from_user` that
fails leaves anything in the bytes it was to fill.

An access outside of a block and a division by zero end a section with a
fault. The kernel passes a call on only if `count`, and `*f_pos` after as many
bytes, are not negative as `loff_t`, so the sums below do not wrap.
-/

namespace LearningLinux.ScullMem

open LearningLinux.Lib
open LearningLinux.Scull (Params sizeT intOf)

/-! ## Memory -/

section Block

variable {α : Type*}

/-- What `kmalloc` returns. -/
structure Block (α : Type*) where
  size : Nat
  mem : Nat → α

def Block.store (b : Block α) (start : Nat) (bytes : List α) : Block α :=
  ⟨b.size, overlay b.mem start bytes⟩

def Block.load (b : Block α) (start count : Nat) : List α :=
  (List.range count).map fun k => b.mem (start + k)

def Block.put (b : Block α) (i : Nat) (v : α) : Block α :=
  ⟨b.size, Function.update b.mem i v⟩

/-- From `start` on there are `count` elements. -/
def Block.Covers (b : Block α) (start : Int) (count : Nat) : Prop :=
  0 ≤ start ∧ start + count ≤ b.size

instance (b : Block α) (start : Int) (count : Nat) :
    Decidable (b.Covers start count) :=
  inferInstanceAs (Decidable (_ ∧ _))

end Block

variable {β : Type*}

/-- An array of pointers to quanta; `none` is `NULL`. -/
abbrev PtrArray (β : Type*) : Type _ := Block (Option (Block β))

/-- `struct scull_qset`. -/
structure Qset (β : Type*) where
  data : Option (PtrArray β)

/-- `struct scull_dev`. -/
structure ScullDev (β : Type*) where
  data : List (Qset β)
  quantum : Int
  qset : Int
  size : Nat

/-- Whether the next `kmalloc` succeeds. Half of the address space and more
is never to be had, and so not what a negative `int` asks for. -/
def kmalloc (size : Nat) : List Bool → Bool × List Bool
  | [] => (false, [])
  | ok :: mallocs => (ok && decide (size < 2 ^ 63), mallocs)

/-- `scull_trim`. -/
def scullTrim (p : Params) (_ : ScullDev β) : ScullDev β :=
  ⟨[], p.scull_quantum, p.scull_qset, 0⟩

/-! ## Following the list -/

/-- `sizeof(struct scull_qset)` and `sizeof(char *)`. -/
def QSET_SIZE : Nat := 16
def POINTER_SIZE : Int := 8

/-- The item that was found, the list after it, what was not allocated. -/
structure Followed (β : Type*) where
  here : Option (Qset β)
  items : List (Qset β)
  mallocs : List Bool

/-- A pointer to the list is followed, to a new and cleared item if it is
`NULL`. -/
def atItem (items : List (Qset β)) (mallocs : List Bool)
    (next : Qset β → List (Qset β) → List Bool → Followed β) : Followed β :=
  match items with
  | d :: rest => next d rest mallocs
  | [] =>
      let m := kmalloc QSET_SIZE mallocs
      if m.1 then next ⟨none⟩ [] m.2 else ⟨none, [], m.2⟩

def scullFollow : Nat → List (Qset β) → List Bool → Followed β
  | 0, items, mallocs =>
      atItem items mallocs fun d rest mallocs => ⟨some d, d :: rest, mallocs⟩
  | n + 1, items, mallocs =>
      atItem items mallocs fun d rest mallocs =>
        let f := scullFollow n rest mallocs
        ⟨f.here, d :: f.items, f.mallocs⟩

/-! ## Positions -/

def itemsize (quantum qset : Int) : Int := intOf (quantum * qset)

/-- Where a position is. -/
structure Place where
  item : Int
  s_pos : Int
  q_pos : Int

def place (quantum qset : Int) (pos : Nat) : Place :=
  let rest := intOf (Int.tmod pos (itemsize quantum qset))
  ⟨intOf (Int.tdiv pos (itemsize quantum qset)), rest.tdiv quantum,
    rest.tmod quantum⟩

/-- How often `while (n--)` goes round. -/
def Place.hops (p : Place) : Nat := (p.item % 2 ^ 32).toNat

/-! ## Reading and writing -/

/-- What a call returns: the bytes it moved, whose number is the value, or an
error. -/
inductive Outcome (β : Type*) where
  | done (bytes : List β)
  | enomem
  | efault
  | erestartsys
deriving DecidableEq

inductive Fault where
  | divideError
  | outOfBounds
deriving DecidableEq, Repr

/-- The end of a call, with `*f_pos` and the device it leaves. -/
structure Section (β : Type*) where
  ret : Outcome β
  pos : Nat
  dev : ScullDev β

def ScullDev.withItems (dev : ScullDev β) (items : List (Qset β)) :
    ScullDev β :=
  { dev with
    data := items }

/-- The list item `n` gets this array. -/
def ScullDev.setArray (dev : ScullDev β) (n : Nat) (ptrs : PtrArray β) :
    ScullDev β :=
  dev.withItems (dev.data.set n ⟨some ptrs⟩)

/-- Update the size. -/
def ScullDev.grow (dev : ScullDev β) (pos : Nat) : ScullDev β :=
  { dev with
    size := if dev.size < pos then pos else dev.size }

structure ReadCall where
  count : Nat
  signal : Bool
  fault : Bool
  mallocs : List Bool

/-- `count` is the length of `buf`. If `copy_from_user` fails, `fault` is what
it leaves behind; `fresh` is in the quantum that `kmalloc` returns. -/
structure WriteCall (β : Type*) where
  buf : List β
  signal : Bool
  fault : Option (Nat → β)
  mallocs : List Bool
  fresh : Nat → β

/-- Only up to the end of this quantum. -/
def upToEnd (quantum : Int) (p : Place) (count : Nat) : Nat :=
  min count (sizeT (quantum - p.q_pos))

/-- `scull_read`, with the values that it has loaded before it took the
lock. -/
def scullRead (quantum qset : Int) (dev : ScullDev β) (c : ReadCall)
    (pos : Nat) : Except Fault (Section β) :=
  if c.signal then .ok ⟨.erestartsys, pos, dev⟩
  else if pos ≥ dev.size then .ok ⟨.done [], pos, dev⟩
  else if itemsize quantum qset = 0 then .error .divideError
  else
    let count := if pos + c.count > dev.size then dev.size - pos else c.count
    let p := place quantum qset pos
    let f := scullFollow p.hops dev.data c.mallocs
    let dev := dev.withItems f.items
    match f.here.bind Qset.data with
    | none => .ok ⟨.done [], pos, dev⟩
    | some ptrs =>
        if ¬ ptrs.Covers p.s_pos 1 then .error .outOfBounds
        else match ptrs.mem p.s_pos.toNat with
        | none => .ok ⟨.done [], pos, dev⟩ -- don't fill holes
        | some q =>
            let count := upToEnd quantum p count
            if ¬ q.Covers p.q_pos count then .error .outOfBounds
            else if c.fault then .ok ⟨.efault, pos, dev⟩
            else .ok ⟨.done (q.load p.q_pos.toNat count), pos + count, dev⟩

/-- The array of a list item, allocated and cleared if there is none. -/
def Qset.array (d : Qset β) (qset : Int) (mallocs : List Bool) :
    Option (PtrArray β) × List Bool :=
  match d.data with
  | some ptrs => (some ptrs, mallocs)
  | none =>
      let m := kmalloc (sizeT (qset * POINTER_SIZE)) mallocs
      (if m.1 then some ⟨qset.toNat, fun _ => none⟩ else none, m.2)

/-- The quantum in a slot, allocated if there is none. -/
def slotQuantum (slot : Option (Block β)) (quantum : Int)
    (mallocs : List Bool) (fresh : Nat → β) : Option (Block β) :=
  match slot with
  | some q => some q
  | none =>
      if (kmalloc (sizeT quantum) mallocs).1 then some ⟨quantum.toNat, fresh⟩
      else none

/-- The part of `scull_write` that has the array. -/
def writeQuantum (quantum : Int) (dev : ScullDev β) (c : WriteCall β)
    (pos : Nat) (p : Place) (ptrs : PtrArray β) (mallocs : List Bool) :
    Except Fault (Section β) :=
  if ¬ ptrs.Covers p.s_pos 1 then .error .outOfBounds
  else match slotQuantum (ptrs.mem p.s_pos.toNat) quantum mallocs c.fresh with
  | none => .ok ⟨.enomem, pos, dev.setArray p.hops ptrs⟩
  | some q =>
      let count := upToEnd quantum p c.buf.length
      let stored (bytes : List β) : ScullDev β :=
        dev.setArray p.hops
          (ptrs.put p.s_pos.toNat (some (q.store p.q_pos.toNat bytes)))
      if ¬ q.Covers p.q_pos count then .error .outOfBounds
      else match c.fault with
      | some left => .ok ⟨.efault, pos, stored ((List.range count).map left)⟩
      | none =>
          .ok ⟨.done (c.buf.take count), pos + count,
            (stored (c.buf.take count)).grow (pos + count)⟩

def scullWrite (quantum qset : Int) (dev : ScullDev β) (c : WriteCall β)
    (pos : Nat) : Except Fault (Section β) :=
  if c.signal then .ok ⟨.erestartsys, pos, dev⟩
  else if itemsize quantum qset = 0 then .error .divideError
  else
    let p := place quantum qset pos
    let f := scullFollow p.hops dev.data c.mallocs
    let dev := dev.withItems f.items
    match f.here with
    | none => .ok ⟨.enomem, pos, dev⟩
    | some d =>
        match d.array qset f.mallocs with
        | (none, _) => .ok ⟨.enomem, pos, dev⟩
        | (some ptrs, mallocs) => writeQuantum quantum dev c pos p ptrs mallocs

/-! ## Opening and seeking -/

/-- Whether the open succeeds. An open for writing only trims the device, if
no signal keeps it from the lock. -/
def scullOpen (p : Params) (dev : ScullDev β) (wronly signal : Bool) :
    Bool × ScullDev β :=
  if wronly then if signal then (false, dev) else (true, scullTrim p dev)
  else (true, dev)

/-- A value converted to `loff_t`. -/
def loffT (n : Int) : Int := n.bmod (2 ^ 64)

/-- The new `f_pos`, unless the seek is refused. -/
def scullLlseek (dev : ScullDev β) (f_pos : Nat) (off : Int) (whence : Nat) :
    Option Nat :=
  let newpos : Option Int :=
    match whence with
    | 0 => some off -- SEEK_SET
    | 1 => some (loffT (f_pos + off)) -- SEEK_CUR
    | 2 => some (loffT (dev.size + off)) -- SEEK_END
    | _ => none
  newpos.bind fun newpos => if newpos < 0 then none else some newpos.toNat

end LearningLinux.ScullMem
