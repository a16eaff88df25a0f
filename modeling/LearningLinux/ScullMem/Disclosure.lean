import LearningLinux.Lib.Threads
import LearningLinux.ScullMem.Sections

/-!
# What a read discloses

A new item and a new array are cleared after `kmalloc`, a new quantum is not.
The size, though, covers everything below the last position written, so after
a seek a read may return what was in the memory before.

Two runs that differ in nothing but that memory are compared by way of a third
one, in which every byte of it is a symbol: the byte `j` of what the `n`-th
call may have found in a new quantum. No operation looks at the bytes, so the
other runs are that one with the symbols replaced.
-/

namespace LearningLinux.ScullMem

open LearningLinux.Lib
open LearningLinux.Scull (Params Mode sizeT intOf)

/-! ## Replacing the bytes -/

section Map

variable {α β γ : Type*} (φ : β → γ)

def Block.map (φ : β → γ) (b : Block β) : Block γ := ⟨b.size, fun i => φ (b.mem i)⟩

def PtrArray.map (ptrs : PtrArray β) : PtrArray γ :=
  Block.map (Option.map (Block.map φ)) ptrs

def Qset.map (d : Qset β) : Qset γ := ⟨d.data.map (PtrArray.map φ)⟩

def ScullDev.map (dev : ScullDev β) : ScullDev γ :=
  ⟨dev.data.map (Qset.map φ), dev.quantum, dev.qset, dev.size⟩

def Followed.map (f : Followed β) : Followed γ :=
  ⟨f.here.map (Qset.map φ), f.items.map (Qset.map φ), f.mallocs⟩

def Outcome.map : Outcome β → Outcome γ
  | .done bytes => .done (bytes.map φ)
  | .enomem => .enomem
  | .efault => .efault
  | .erestartsys => .erestartsys

def Section.map (r : Section β) : Section γ :=
  ⟨r.ret.map φ, r.pos, r.dev.map φ⟩

def WriteCall.map (c : WriteCall β) : WriteCall γ :=
  ⟨c.buf.map φ, c.signal, c.fault.map fun left k => φ (left k), c.mallocs,
    fun k => φ (c.fresh k)⟩

variable {φ}

@[simp] theorem Block.load_map (b : Block β) (start count : Nat) :
    (b.map φ).load start count = (b.load start count).map φ := by
  rw [Block.load, Block.load, List.map_map]
  rfl

@[simp] theorem Block.store_map (b : Block β) (start : Nat) (bytes : List β) :
    (b.map φ).store start (bytes.map φ) = (b.store start bytes).map φ := by
  refine congrArg (Block.mk b.size) (funext fun i => ?_)
  show overlay (fun i => φ (b.mem i)) start (bytes.map φ) i =
    φ (overlay b.mem start bytes i)
  by_cases hi : start ≤ i ∧ i - start < bytes.length
  · rw [overlay, overlay, dif_pos hi, dif_pos (by rwa [List.length_map])]
    exact List.getElem_map φ
  · rw [overlay_outside hi, overlay_outside (by rwa [List.length_map])]

theorem PtrArray.put_map (ptrs : PtrArray β) (i : Nat) (q : Block β) :
    Block.put (PtrArray.map φ ptrs) i (some (q.map φ)) =
      PtrArray.map φ (Block.put ptrs i (some q)) := by
  refine congrArg (Block.mk ptrs.size) (funext fun j => ?_)
  show Function.update (fun j => (ptrs.mem j).map (Block.map φ)) i
    (some (q.map φ)) j = (Function.update ptrs.mem i (some q) j).map (Block.map φ)
  by_cases hj : j = i
  · rw [hj, Function.update_self, Function.update_self]
    rfl
  · rw [Function.update_of_ne hj, Function.update_of_ne hj]

theorem atItem_map {items : List (Qset β)} {mallocs : List Bool}
    {next : Qset β → List (Qset β) → List Bool → Followed β}
    {next' : Qset γ → List (Qset γ) → List Bool → Followed γ}
    (hnext : ∀ d rest mallocs,
      next' (d.map φ) (rest.map (Qset.map φ)) mallocs =
        (next d rest mallocs).map φ) :
    atItem (items.map (Qset.map φ)) mallocs next' =
      (atItem items mallocs next).map φ := by
  cases items with
  | cons d rest => exact hnext d rest mallocs
  | nil =>
      rw [List.map_nil, atItem, atItem]
      split
      · exact hnext ⟨none⟩ [] _
      · rfl

theorem scullFollow_map (n : Nat) (items : List (Qset β))
    (mallocs : List Bool) :
    scullFollow n (items.map (Qset.map φ)) mallocs =
      (scullFollow n items mallocs).map φ := by
  induction n generalizing items mallocs with
  | zero => exact atItem_map fun d rest mallocs => rfl
  | succ n ih =>
      refine atItem_map fun d rest mallocs => ?_
      dsimp only
      rw [ih]
      rfl

@[simp] theorem ScullDev.withItems_map (dev : ScullDev β)
    (items : List (Qset β)) :
    (dev.map φ).withItems (items.map (Qset.map φ)) =
      (dev.withItems items).map φ :=
  rfl

@[simp] theorem ScullDev.setArray_map (dev : ScullDev β) (n : Nat)
    (ptrs : PtrArray β) :
    (dev.map φ).setArray n (PtrArray.map φ ptrs) =
      (dev.setArray n ptrs).map φ := by
  rw [ScullDev.setArray, ScullDev.setArray, ← withItems_map, List.map_set]
  rfl

/-! The sizes are those they were, and so is every test. -/

@[simp] theorem Block.covers_map (b : Block β) (start : Int) (count : Nat) :
    (b.map φ).Covers start count ↔ b.Covers start count :=
  Iff.rfl

@[simp] theorem PtrArray.covers_map (ptrs : PtrArray β) (start : Int)
    (count : Nat) : Block.Covers (PtrArray.map φ ptrs) start count ↔
      Block.Covers ptrs start count :=
  Iff.rfl

@[simp] theorem PtrArray.mem_map (ptrs : PtrArray β) (i : Nat) :
    (PtrArray.map φ ptrs).mem i = (Block.mem ptrs i).map (Block.map φ) :=
  rfl

@[simp] theorem ScullDev.data_map (dev : ScullDev β) :
    (dev.map φ).data = dev.data.map (Qset.map φ) :=
  rfl

@[simp] theorem ScullDev.size_map (dev : ScullDev β) :
    (dev.map φ).size = dev.size :=
  rfl

theorem Followed.array_map (f : Followed β) :
    (f.map φ).here.bind Qset.data =
      (f.here.bind Qset.data).map (PtrArray.map φ) := by
  rw [Followed.map, Option.bind_map, Option.map_bind]
  rfl

theorem count_below_size (pos count size : Nat)
    [Decidable (pos + count > size)] :
    (if pos + count > size then size - pos else count) =
      min count (size - pos) := by
  split <;> omega

theorem scullRead_map (quantum qset : Int) (dev : ScullDev β) (c : ReadCall)
    (pos : Nat) :
    scullRead quantum qset (dev.map φ) c pos =
      (scullRead quantum qset dev c pos).map (Section.map φ) := by
  simp only [scullRead, count_below_size]
  simp only [ScullDev.size_map, ScullDev.data_map, scullFollow_map,
    Followed.array_map]
  split
  · rfl
  split
  · rfl
  split
  · rfl
  cases (scullFollow (place quantum qset pos).hops dev.data
    c.mallocs).here.bind Qset.data with
  | none => rfl
  | some ptrs =>
      simp only [Option.map_some, PtrArray.covers_map, PtrArray.mem_map]
      split
      · rfl
      cases Block.mem ptrs (place quantum qset pos).s_pos.toNat with
      | none => rfl
      | some q =>
          simp only [Option.map_some, Block.covers_map, Block.load_map]
          split
          · rfl
          split
          · rfl
          · rfl

theorem Qset.array_map (d : Qset β) (qset : Int) (mallocs : List Bool) :
    (d.map φ).array qset mallocs =
      ((d.array qset mallocs).1.map (PtrArray.map φ),
        (d.array qset mallocs).2) := by
  rw [Qset.array, Qset.array]
  cases hdata : d.data with
  | some ptrs => rw [Qset.map, hdata]; rfl
  | none =>
      rw [Qset.map, hdata]
      dsimp only [Option.map_none]
      split
      · rfl
      · rfl

theorem slotQuantum_map (slot : Option (Block β)) (quantum : Int)
    (mallocs : List Bool) (fresh : Nat → β) :
    slotQuantum (slot.map (Block.map φ)) quantum mallocs (fun k => φ (fresh k)) =
      (slotQuantum slot quantum mallocs fresh).map (Block.map φ) := by
  cases slot with
  | some q => rfl
  | none =>
      rw [Option.map_none, slotQuantum, slotQuantum]
      split
      · rfl
      · rfl

theorem map_range_map (left : Nat → β) (count : Nat) :
    ((List.range count).map left).map φ =
      (List.range count).map fun k => φ (left k) :=
  List.map_map

theorem writeQuantum_map (quantum : Int) (dev : ScullDev β) (c : WriteCall β)
    (pos : Nat) (p : Place) (ptrs : PtrArray β) (mallocs : List Bool) :
    writeQuantum quantum (dev.map φ) (c.map φ) pos p (PtrArray.map φ ptrs)
        mallocs =
      (writeQuantum quantum dev c pos p ptrs mallocs).map (Section.map φ) := by
  simp only [writeQuantum, PtrArray.covers_map, PtrArray.mem_map,
    WriteCall.map, slotQuantum_map, List.length_map, ScullDev.setArray_map]
  split
  · rfl
  cases slotQuantum (Block.mem ptrs p.s_pos.toNat) quantum mallocs
      c.fresh with
  | none => rfl
  | some q =>
      simp only [Option.map_some, Block.covers_map]
      split
      · rfl
      cases c.fault with
      | some left =>
          dsimp only [Option.map_some]
          rw [← map_range_map, Block.store_map, PtrArray.put_map,
            ScullDev.setArray_map]
          rfl
      | none =>
          dsimp only [Option.map_none]
          rw [← List.map_take, Block.store_map, PtrArray.put_map,
            ScullDev.setArray_map]
          rfl

theorem scullWrite_map (quantum qset : Int) (dev : ScullDev β)
    (c : WriteCall β) (pos : Nat) :
    scullWrite quantum qset (dev.map φ) (c.map φ) pos =
      (scullWrite quantum qset dev c pos).map (Section.map φ) := by
  simp only [scullWrite, ScullDev.data_map, scullFollow_map]
  rw [show (c.map φ).signal = c.signal from rfl,
    show (c.map φ).mallocs = c.mallocs from rfl]
  split
  · rfl
  split
  · rfl
  generalize scullFollow (place quantum qset pos).hops dev.data c.mallocs = f
  cases hhere : f.here with
  | none => rw [Followed.map, hhere]; rfl
  | some d =>
      rw [Followed.map, hhere]
      dsimp only [Option.map_some]
      rw [Qset.array_map]
      obtain ⟨ptrs, mallocs⟩ := d.array qset f.mallocs
      cases ptrs with
      | none => rfl
      | some ptrs =>
          dsimp only [Option.map_some]
          rw [ScullDev.withItems_map]
          exact writeQuantum_map ..

theorem scullOpen_map (p : Params) (dev : ScullDev β) (wronly signal : Bool) :
    scullOpen p (dev.map φ) wronly signal =
      ((scullOpen p dev wronly signal).1,
        (scullOpen p dev wronly signal).2.map φ) := by
  rw [scullOpen, scullOpen]
  split
  · split
    · rfl
    · rfl
  · rfl

end Map

/-! ## Calls through open files -/

/-- `struct file`. -/
structure File where
  mode : Mode
  f_pos : Nat

/-- A device and the files that are open on it. -/
structure Files (β : Type*) where
  dev : ScullDev β
  files : List File

inductive SysCall (β : Type*) where
  | opens (mode : Mode) (signal : Bool)
  | read (i : Nat) (c : ReadCall)
  | write (i : Nat) (c : WriteCall β)
  | llseek (i : Nat) (off : Int) (whence : Nat)

variable {β γ : Type*}

/-- The state that `scull_init_module` leaves. -/
def Files.init (p : Params) : Files β :=
  ⟨⟨[], p.scull_quantum, p.scull_qset, 0⟩, []⟩

/-- The kernel passes a call on if the file was opened for it and the file
position does not leave `loff_t`. A call that faults has no end. -/
def Files.reads (s : Files β) (i : Nat) (c : ReadCall) : Option (Section β) :=
  s.files[i]?.bind fun f =>
    if f.mode.read ∧ f.f_pos + c.count < 2 ^ 63 then
      (scullRead s.dev.quantum s.dev.qset s.dev c f.f_pos).toOption
    else none

def Files.writes (s : Files β) (i : Nat) (c : WriteCall β) :
    Option (Section β) :=
  s.files[i]?.bind fun f =>
    if f.mode.write ∧ f.f_pos + c.buf.length < 2 ^ 63 then
      (scullWrite s.dev.quantum s.dev.qset s.dev c f.f_pos).toOption
    else none

def Files.seek (s : Files β) (i : Nat) (f_pos : Nat) : Files β :=
  ⟨s.dev, s.files.modify i fun f => ⟨f.mode, f_pos⟩⟩

def Files.after (s : Files β) (i : Nat) (r : Section β) : Files β :=
  ⟨r.dev, (s.seek i r.pos).files⟩

def Files.step (p : Params) (s : Files β) : SysCall β → Option (Files β)
  | .opens mode signal =>
      let o := scullOpen p s.dev (mode.write && !mode.read) signal
      some ⟨o.2, if o.1 then s.files ++ [⟨mode, 0⟩] else s.files⟩
  | .read i c => (s.reads i c).map (s.after i)
  | .write i c => (s.writes i c).map (s.after i)
  | .llseek i off whence =>
      s.files[i]?.map fun f =>
        match scullLlseek s.dev f.f_pos off whence with
        | none => s
        | some f_pos => s.seek i f_pos

/-- What the reads of a run return, up to the first call that faults. -/
def returned (p : Params) : Files β → List (SysCall β) → List (Outcome β)
  | _, [] => []
  | s, c :: calls =>
      match s.step p c with
      | none => []
      | some t =>
          match c with
          | .read i c =>
              ((s.reads i c).map Section.ret).toList ++ returned p t calls
          | _ => returned p t calls

/-! ## Runs with other bytes -/

def SysCall.map (φ : β → γ) : SysCall β → SysCall γ
  | .opens mode signal => .opens mode signal
  | .read i c => .read i c
  | .write i c => .write i (c.map φ)
  | .llseek i off whence => .llseek i off whence

def Files.map (φ : β → γ) (s : Files β) : Files γ := ⟨s.dev.map φ, s.files⟩

variable {φ : β → γ} {p : Params} {s t : Files β}

theorem toOption_map {ε α α' : Type*} (f : α → α') (e : Except ε α) :
    (e.map f).toOption = e.toOption.map f := by
  cases e with
  | error _ => rfl
  | ok _ => rfl

theorem toOption_eq_some {ε α : Type*} {e : Except ε α} {a : α} :
    e.toOption = some a ↔ e = .ok a := by
  cases e with
  | error _ => exact iff_of_false (fun h => nomatch h) (fun h => nomatch h)
  | ok _ =>
      rw [Except.toOption, Option.some.injEq, Except.ok.injEq]

theorem Files.reads_map (i : Nat) (c : ReadCall) :
    (s.map φ).reads i c = (s.reads i c).map (Section.map φ) := by
  rw [reads, reads, Option.map_bind]
  refine Option.bind_congr fun f _ => ?_
  dsimp only [Function.comp_apply]
  split
  · rw [← toOption_map, ← scullRead_map]
    rfl
  · rfl

theorem Files.writes_map (i : Nat) (c : WriteCall β) :
    (s.map φ).writes i (c.map φ) = (s.writes i c).map (Section.map φ) := by
  rw [writes, writes, Option.map_bind]
  refine Option.bind_congr fun f _ => ?_
  dsimp only [Function.comp_apply]
  rw [show (c.map φ).buf.length = c.buf.length from List.length_map _]
  split
  · rw [← toOption_map, ← scullWrite_map]
    rfl
  · rfl

theorem Files.step_map (c : SysCall β) :
    (s.map φ).step p (c.map φ) = (s.step p c).map (Files.map φ) := by
  cases c with
  | opens mode signal =>
      rw [SysCall.map, step, step, Files.map, scullOpen_map]
      rfl
  | read i c =>
      rw [SysCall.map, step, step, reads_map, Option.map_map, Option.map_map]
      rfl
  | write i c =>
      rw [SysCall.map, step, step, writes_map, Option.map_map, Option.map_map]
      rfl
  | llseek i off whence =>
      rw [SysCall.map, step, step, Option.map_map]
      refine Option.map_congr fun f _ => ?_
      show (match scullLlseek s.dev f.f_pos off whence with
        | none => s.map φ
        | some f_pos => (s.map φ).seek i f_pos) = _
      dsimp only [Function.comp_apply]
      split
      · rfl
      · rfl

theorem returned_map (calls : List (SysCall β)) :
    returned p (s.map φ) (calls.map (SysCall.map φ)) =
      (returned p s calls).map (Outcome.map φ) := by
  induction calls generalizing s with
  | nil => rfl
  | cons c calls ih =>
      rw [List.map_cons, returned, returned, Files.step_map]
      cases s.step p c with
      | none => rfl
      | some t =>
          cases c with
          | read i c =>
              dsimp only [Option.map_some, SysCall.map]
              rw [ih, Files.reads_map, List.map_append]
              cases s.reads i c with
              | none => rfl
              | some r => rfl
          | opens mode signal => exact ih
          | write i c => exact ih
          | llseek i off whence => exact ih

/-- `mem` is in the quantum that the call may allocate. -/
def SysCall.withFresh (mem : Nat → β) : SysCall β → SysCall β
  | .write i c => .write i { c with fresh := mem }
  | c => c

/-- A run in which the `n`-th call finds `mem n` in its quantum. -/
def filled (mem : Nat → Nat → β) (calls : List (SysCall β)) :
    List (SysCall β) :=
  calls.mapIdx fun n c => c.withFresh (mem n)

/-- A byte, or byte `j` of what the `n`-th call finds. -/
abbrev Sym : Type := UInt8 ⊕ (Nat × Nat)

def symbolic (calls : List (SysCall UInt8)) : List (SysCall Sym) :=
  filled (fun n j => .inr (n, j)) (calls.map (SysCall.map Sum.inl))

def Sym.value (mem : Nat → Nat → UInt8) : Sym → UInt8 :=
  Sum.elim id fun a => mem a.1 a.2

theorem WriteCall.map_inl (mem : Nat → Nat → UInt8) (c : WriteCall UInt8)
    (fresh : Nat → Sym) :
    { c.map Sum.inl with fresh := fresh }.map (Sym.value mem) =
      { c with fresh := fun j => Sym.value mem (fresh j) } := by
  obtain ⟨buf, signal, fault, mallocs, _⟩ := c
  have hbuf : (buf.map Sum.inl).map (Sym.value mem) = buf := by
    rw [List.map_map]
    exact List.map_id _
  rw [WriteCall.map, WriteCall.map]
  dsimp only
  rw [hbuf, Option.map_map]
  congr 1
  exact congrFun Option.map_id fault

theorem withFresh_value (mem : Nat → Nat → UInt8) (n : Nat)
    (c : SysCall UInt8) :
    ((c.map Sum.inl).withFresh fun j => Sum.inr (n, j)).map (Sym.value mem) =
      c.withFresh (mem n) := by
  cases c with
  | opens mode signal => rfl
  | read i c => rfl
  | write i c => exact congrArg (SysCall.write i) (c.map_inl mem _)
  | llseek i off whence => rfl

theorem symbolic_value (mem : Nat → Nat → UInt8)
    (calls : List (SysCall UInt8)) :
    (symbolic calls).map (SysCall.map (Sym.value mem)) = filled mem calls := by
  refine List.ext_getElem? fun n => ?_
  rw [symbolic, filled, filled, List.getElem?_map, List.getElem?_mapIdx,
    List.getElem?_map, List.getElem?_mapIdx, Option.map_map, Option.map_map]
  exact Option.map_congr fun c _ => withFresh_value mem n c

theorem returned_filled (mem : Nat → Nat → UInt8)
    (calls : List (SysCall UInt8)) :
    returned p (Files.init p) (filled mem calls) =
      (returned p (Files.init p) (symbolic calls)).map
        (Outcome.map (Sym.value mem)) := by
  rw [← symbolic_value, ← returned_map]
  rfl

/-! ## Only what was written -/

def Outcome.bytes : Outcome β → List β
  | .done bytes => bytes
  | _ => []

/-- A read that moves bytes finds each of them written. -/
def ReadsWritten (s : Files Sym) : SysCall Sym → Prop
  | .read i c => ∀ f, s.files[i]? = some f → c.signal = false →
      c.fault = false → f.f_pos < s.dev.size →
      let p := place s.dev.quantum s.dev.qset f.f_pos
      ∀ q, s.dev.slot p.hops p.s_pos.toNat = some q →
        ∀ k < upToEnd s.dev.quantum p (min c.count (s.dev.size - f.f_pos)),
          (q.mem (p.q_pos.toNat + k)).isLeft
  | _ => True

/-- What the reads return does not depend on what was in the memory. -/
def Independent (p : Params) (calls : List (SysCall UInt8)) : Prop :=
  ∀ mem mem', returned p (Files.init p) (filled mem calls) =
    returned p (Files.init p) (filled mem' calls)

/-- No byte of the memory is among those that are returned. -/
def Outcome.Known (o : Outcome Sym) : Prop := ∀ b ∈ o.bytes, b.isLeft

theorem Outcome.map_value_eq {mem mem' : Nat → Nat → UInt8} {o : Outcome Sym}
    (h : o.Known) :
    o.map (Sym.value mem) = o.map (Sym.value mem') := by
  cases o with
  | done bytes =>
      refine congrArg Outcome.done (List.map_inj_left.mpr fun b hb => ?_)
      cases b with
      | inl v => rfl
      | inr a => exact absurd (h _ hb) Bool.false_ne_true
  | enomem => rfl
  | efault => rfl
  | erestartsys => rfl

/-- Zeros and ones tell a symbol from a byte. -/
theorem Outcome.known_of_eq {o : Outcome Sym}
    (h : o.map (Sym.value fun _ _ => 0) = o.map (Sym.value fun _ _ => 1)) :
    o.Known := by
  cases o with
  | done bytes =>
      intro b hb
      have hsame := List.map_inj_left.mp (Outcome.done.inj h) b hb
      cases b with
      | inl v => rfl
      | inr a =>
          have hne : (0 : UInt8) ≠ 1 := by decide
          exact absurd hsame hne
  | enomem => exact fun b hb => absurd hb List.not_mem_nil
  | efault => exact fun b hb => absurd hb List.not_mem_nil
  | erestartsys => exact fun b hb => absurd hb List.not_mem_nil

theorem independent_iff_known (calls : List (SysCall UInt8)) :
    Independent p calls ↔
      ∀ o ∈ returned p (Files.init p) (symbolic calls), o.Known := by
  constructor
  · intro h o ho
    have hsame := h (fun _ _ => 0) (fun _ _ => 1)
    rw [returned_filled, returned_filled] at hsame
    exact Outcome.known_of_eq (List.map_inj_left.mp hsame o ho)
  · intro h mem mem'
    rw [returned_filled, returned_filled]
    exact List.map_inj_left.mpr fun o ho => Outcome.map_value_eq (h o ho)

theorem Block.mem_load_iff {P : β → Prop} (q : Block β) (start count : Nat) :
    (∀ b ∈ q.load start count, P b) ↔ ∀ k < count, P (q.mem (start + k)) := by
  rw [Block.load, List.forall_mem_map]
  simp only [List.mem_range]

theorem ReadEnds.known_iff {dev : ScullDev Sym} {quantum qset : Int}
    {c : ReadCall} {pos pos' : Nat} {ret : Outcome Sym}
    (h : ReadEnds quantum qset dev c pos ret pos') :
    ret.Known ↔ (c.signal = false → c.fault = false → pos < dev.size →
      ∀ q, dev.slot (place quantum qset pos).hops
          (place quantum qset pos).s_pos.toNat = some q →
        ∀ k < upToEnd quantum (place quantum qset pos)
          (min c.count (dev.size - pos)),
          (q.mem ((place quantum qset pos).q_pos.toNat + k)).isLeft) := by
  have hnone : ∀ b ∈ ([] : List Sym), b.isLeft :=
    fun b hb => absurd hb List.not_mem_nil
  cases h with
  | interrupted hsignal =>
      refine iff_of_true hnone fun hno => ?_
      rw [hsignal] at hno
      cases hno
  | «end» hpos =>
      exact iff_of_true hnone fun _ _ hlt => absurd hlt (Nat.not_lt.mpr hpos)
  | hole hslot =>
      refine iff_of_true hnone fun _ _ _ q hq => ?_
      rw [hslot] at hq
      cases hq
  | fault hfault =>
      refine iff_of_true hnone fun _ hno => ?_
      rw [hfault] at hno
      cases hno
  | moved q count hsignal hfault hpos hslot hcount _ =>
      refine (Block.mem_load_iff q _ count).trans ?_
      rw [hcount]
      constructor
      · intro hmem _ _ _ q' hq'
        rw [hslot] at hq'
        cases hq'
        exact hmem
      · intro hall
        exact hall hsignal hfault hpos q hslot

/-- Whether a read returns something it should not is decided by the state
that it finds. -/
theorem known_iff_readsWritten {s : Files Sym} {i : Nat} {c : ReadCall}
    {r : Section Sym} (h : s.reads i c = some r) :
    r.ret.Known ↔ ReadsWritten s (.read i c) := by
  obtain ⟨f, hf, h⟩ := Option.bind_eq_some_iff.mp h
  obtain ⟨-, h⟩ := Option.ite_none_right_eq_some.mp h
  obtain ⟨-, -, hends⟩ := scullRead_cases (toOption_eq_some.mp h)
  rw [hends.known_iff]
  constructor
  · intro hall f' hf'
    rw [hf] at hf'
    cases hf'
    exact hall
  · intro hall
    exact hall f hf

theorem known_iff_along {s : Files Sym} (calls : List (SysCall Sym)) :
    (∀ o ∈ returned p s calls, o.Known) ↔
      Along (Files.step p) ReadsWritten s calls := by
  induction calls generalizing s with
  | nil => exact iff_of_true (fun o ho => absurd ho List.not_mem_nil) trivial
  | cons c calls ih =>
      rw [returned, along_cons]
      cases hstep : s.step p c with
      | none => simp
      | some t =>
          simp only [Option.some.injEq, forall_eq']
          rw [← ih]
          cases c with
          | read i c =>
              obtain ⟨r, hr, -⟩ := Option.map_eq_some_iff.mp hstep
              rw [← known_iff_readsWritten hr]
              simp [hr]
          | opens mode signal => exact (iff_of_eq (true_and _)).symm
          | write i c => exact (iff_of_eq (true_and _)).symm
          | llseek i off whence => exact (iff_of_eq (true_and _)).symm

/-- For every sequence of calls: what its reads return is the same in all
memory, if and only if each of them covers written bytes only. -/
theorem reads_independent_iff (p : Params) (calls : List (SysCall UInt8)) :
    Independent p calls ↔
      Along (Files.step p) ReadsWritten (Files.init p) (symbolic calls) :=
  (independent_iff_known calls).trans (known_iff_along (symbolic calls))

/-! A byte is written behind a gap of one, and both are read. -/

def gap : List (SysCall UInt8) :=
  [ .opens ⟨true, true⟩ false, .llseek 0 1 0,
    .write 0 ⟨[65], false, none, [true, true, true], fun _ => 0⟩,
    .llseek 0 0 0, .read 0 ⟨2, false, false, []⟩ ]

theorem gap_discloses :
    returned ⟨4000, 1000, 4000⟩ (Files.init ⟨4000, 1000, 4000⟩)
        (filled (fun _ _ => 0) gap) = [.done [0, 65]] ∧
      returned ⟨4000, 1000, 4000⟩ (Files.init ⟨4000, 1000, 4000⟩)
        (filled (fun _ _ => 83) gap) = [.done [83, 65]] ∧
      ¬ Independent ⟨4000, 1000, 4000⟩ gap := by
  have hzeros : returned ⟨4000, 1000, 4000⟩ (Files.init ⟨4000, 1000, 4000⟩)
      (filled (fun _ _ => 0) gap) = [.done [0, 65]] := by
    decide +kernel
  have hsecret : returned ⟨4000, 1000, 4000⟩ (Files.init ⟨4000, 1000, 4000⟩)
      (filled (fun _ _ => 83) gap) = [.done [83, 65]] := by
    decide +kernel
  refine ⟨hzeros, hsecret, fun h => ?_⟩
  have hsame := h (fun _ _ => 0) (fun _ _ => 83)
  rw [hzeros, hsecret] at hsame
  exact absurd hsame (by decide)

end LearningLinux.ScullMem
