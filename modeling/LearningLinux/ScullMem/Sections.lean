import Mathlib.Data.List.Basic
import LearningLinux.ScullMem.Device

/-!
# What a section does

The quanta of a device, looked up by the number of the list item and the
index in its array. Following the list appends items and changes no quantum,
so a read leaves every quantum alone and a write touches one; `scullRead_cases`
and `scullWrite_cases` say how each section may end.

`Fits` is the invariant behind the bounds: every array has `qset` slots and
every quantum `quantum` bytes. A section that works with the same two values
stays inside of its blocks and keeps it.
-/

namespace LearningLinux.ScullMem

open LearningLinux.Lib
open LearningLinux.Scull (Params sizeT intOf intOf_of_lt)

variable {β : Type*} {dev : ScullDev β} {n : Nat} {items : List (Qset β)}
  {mallocs : List Bool}

/-! ## Quanta -/

/-- The quantum in slot `s` of item `n`. -/
def ScullDev.slot (dev : ScullDev β) (n s : Nat) : Option (Block β) :=
  dev.data[n]?.bind fun d => d.data.bind fun ptrs => ptrs.mem s

/-- Nothing but the size may differ. -/
structure SameQuanta (dev dev' : ScullDev β) : Prop where
  slot : ∀ n s, dev'.slot n s = dev.slot n s
  quantum : dev'.quantum = dev.quantum
  qset : dev'.qset = dev.qset

theorem SameQuanta.refl (dev : ScullDev β) : SameQuanta dev dev :=
  ⟨fun _ _ => rfl, rfl, rfl⟩

theorem atItem_items (next : Qset β → List (Qset β) → List Bool → Followed β)
    (hnext : ∀ d rest mallocs, ∃ k,
      (next d rest mallocs).items = d :: rest ++ List.replicate k ⟨none⟩) :
    ∃ k, (atItem items mallocs next).items =
      items ++ List.replicate k ⟨none⟩ := by
  cases items with
  | cons d rest => exact hnext d rest mallocs
  | nil =>
      rw [atItem]
      split
      · obtain ⟨k, hk⟩ := hnext ⟨none⟩ [] (kmalloc QSET_SIZE mallocs).2
        exact ⟨k + 1, hk⟩
      · exact ⟨0, rfl⟩

/-- Following the list appends empty items. -/
theorem scullFollow_items (n : Nat) (items : List (Qset β))
    (mallocs : List Bool) : ∃ k, (scullFollow n items mallocs).items =
      items ++ List.replicate k ⟨none⟩ := by
  induction n generalizing items mallocs with
  | zero => exact atItem_items _ fun d rest mallocs => ⟨0, by simp⟩
  | succ n ih =>
      refine atItem_items _ fun d rest mallocs => ?_
      obtain ⟨k, hk⟩ := ih rest mallocs
      exact ⟨k, congrArg (d :: ·) hk⟩

theorem atItem_here {next : Qset β → List (Qset β) → List Bool → Followed β}
    {i : Nat} {d : Qset β}
    (hnext : ∀ d' rest mallocs, (next d' rest mallocs).here = some d →
      (next d' rest mallocs).items[i]? = some d)
    (h : (atItem items mallocs next).here = some d) :
    (atItem items mallocs next).items[i]? = some d := by
  cases items with
  | cons d' rest => exact hnext d' rest mallocs h
  | nil =>
      rw [atItem] at h ⊢
      split at h
      · next hok =>
          rw [if_pos hok]
          exact hnext _ _ _ h
      · cases h

/-- The item that was found is item `n`. -/
theorem scullFollow_here {d : Qset β}
    (h : (scullFollow n items mallocs).here = some d) :
    (scullFollow n items mallocs).items[n]? = some d := by
  induction n generalizing items mallocs with
  | zero =>
      exact atItem_here (fun d' rest mallocs hd => hd) h
  | succ n ih =>
      exact atItem_here (fun d' rest mallocs hd => ih hd) h

theorem atItem_missing
    {next : Qset β → List (Qset β) → List Bool → Followed β} {i : Nat}
    (hnext : ∀ d rest mallocs, (next d rest mallocs).here = none →
      (d :: rest)[i]? = none)
    (h : (atItem items mallocs next).here = none) : items[i]? = none := by
  cases items with
  | cons d rest => exact hnext d rest mallocs h
  | nil => rfl

/-- Only an item that was not there can be missing. -/
theorem scullFollow_missing
    (h : (scullFollow n items mallocs).here = none) : items[n]? = none := by
  induction n generalizing items mallocs with
  | zero =>
      refine atItem_missing ?_ h
      intro d rest mallocs hd
      cases hd
  | succ n ih =>
      refine atItem_missing ?_ h
      intro d rest mallocs hd
      exact ih hd

theorem getElem?_replicate_none {k i : Nat} :
    ((List.replicate k (⟨none⟩ : Qset β))[i]?.bind Qset.data) = none := by
  rw [List.getElem?_replicate]
  split <;> rfl

theorem sameQuanta_follow (dev : ScullDev β) (n : Nat)
    (mallocs : List Bool) :
    SameQuanta dev (dev.withItems (scullFollow n dev.data mallocs).items) := by
  refine ⟨fun m s => ?_, rfl, rfl⟩
  obtain ⟨k, hk⟩ := scullFollow_items n dev.data mallocs
  show (((scullFollow n dev.data mallocs).items)[m]?.bind _) = _
  rw [hk, ScullDev.slot]
  rcases Nat.lt_or_ge m dev.data.length with hlt | hge
  · rw [List.getElem?_append_left hlt]
  · rw [List.getElem?_append_right hge, List.getElem?_eq_none hge]
    have hnone := getElem?_replicate_none (β := β) (k := k)
      (i := m - dev.data.length)
    rw [List.getElem?_replicate] at hnone ⊢
    split <;> rfl

theorem slot_setArray {d : Qset β} (hd : dev.data[n]? = some d)
    (ptrs : PtrArray β) (m s : Nat) :
    (dev.setArray n ptrs).slot m s =
      if m = n then ptrs.mem s else dev.slot m s := by
  obtain ⟨hlt, -⟩ := List.getElem?_eq_some_iff.mp hd
  rw [ScullDev.slot]
  show ((dev.data.set n ⟨some ptrs⟩)[m]?.bind _) = _
  split
  · next heq =>
      subst heq
      rw [List.getElem?_set_self hlt]
      rfl
  · next hne =>
      rw [List.getElem?_set_ne (Ne.symm hne)]
      rfl

theorem slot_of_item {d : Qset β} (hd : dev.data[n]? = some d) (s : Nat) :
    dev.slot n s = d.data.bind fun ptrs => ptrs.mem s := by
  rw [ScullDev.slot, hd]
  rfl

/-- The array of an item has its quanta. -/
theorem array_mem {d : Qset β} {qset : Int} {ptrs : PtrArray β}
    (h : (d.array qset mallocs).1 = some ptrs) (s : Nat) :
    ptrs.mem s = d.data.bind fun ptrs => ptrs.mem s := by
  rw [Qset.array] at h
  split at h
  · next hdata =>
      cases h
      rw [hdata]
      rfl
  · next hdata =>
      obtain ⟨-, hptrs⟩ := Option.ite_none_right_eq_some.mp h
      cases hptrs
      rw [hdata]
      rfl

/-- An item with an array for its quanta is as good as before. -/
theorem sameQuanta_setArray {d : Qset β} {ptrs : PtrArray β}
    (hd : dev.data[n]? = some d)
    (hptrs : ∀ s, ptrs.mem s = d.data.bind fun ptrs => ptrs.mem s) :
    SameQuanta dev (dev.setArray n ptrs) := by
  refine ⟨fun m s => ?_, rfl, rfl⟩
  rw [slot_setArray hd]
  split
  · next heq => rw [heq, slot_of_item hd, hptrs]
  · rfl

theorem SameQuanta.trans {dev' dev'' : ScullDev β} (h : SameQuanta dev dev')
    (h' : SameQuanta dev' dev'') : SameQuanta dev dev'' :=
  ⟨fun n s => (h'.slot n s).trans (h.slot n s), h'.quantum.trans h.quantum,
    h'.qset.trans h.qset⟩

/-! ## How a section ends -/

theorem Block.length_load {α : Type*} (b : Block α) (start count : Nat) :
    (b.load start count).length = count := by
  rw [Block.load, List.length_map, List.length_range]

theorem Block.getElem_load {α : Type*} (b : Block α) (start count : Nat)
    {k : Nat} (hk : k < (b.load start count).length) :
    (b.load start count)[k] = b.mem (start + k) := by
  simp only [Block.load, List.getElem_map, List.getElem_range]

variable {quantum qset : Int} {pos : Nat} {r : Section β}

/-- The ways `scull_read` ends. -/
inductive ReadEnds (quantum qset : Int) (dev : ScullDev β) (c : ReadCall)
    (pos : Nat) : Outcome β → Nat → Prop where
  | interrupted (hsignal : c.signal = true) :
      ReadEnds quantum qset dev c pos .erestartsys pos
  | end (hpos : dev.size ≤ pos) : ReadEnds quantum qset dev c pos (.done []) pos
  | hole (hslot : dev.slot (place quantum qset pos).hops
      (place quantum qset pos).s_pos.toNat = none) :
      ReadEnds quantum qset dev c pos (.done []) pos
  | fault (hfault : c.fault = true) : ReadEnds quantum qset dev c pos .efault pos
  | moved (q : Block β) (count : Nat) (hsignal : c.signal = false)
      (hfault : c.fault = false) (hpos : pos < dev.size)
      (hslot : dev.slot (place quantum qset pos).hops
        (place quantum qset pos).s_pos.toNat = some q)
      (hcount : count = upToEnd quantum (place quantum qset pos)
        (min c.count (dev.size - pos)))
      (hcovers : q.Covers (place quantum qset pos).q_pos count) :
      ReadEnds quantum qset dev c pos
        (.done (q.load (place quantum qset pos).q_pos.toNat count))
        (pos + count)

/-- What was found has the quanta of item `n`. -/
theorem slot_of_followed (dev : ScullDev β) (n : Nat) (mallocs : List Bool)
    (s : Nat) : dev.slot n s =
      ((scullFollow n dev.data mallocs).here.bind Qset.data).bind
        fun ptrs => ptrs.mem s := by
  cases hhere : (scullFollow n dev.data mallocs).here with
  | none =>
      rw [ScullDev.slot, scullFollow_missing hhere]
      rfl
  | some d =>
      rw [← (sameQuanta_follow dev n mallocs).slot,
        slot_of_item (scullFollow_here hhere)]
      rfl

theorem scullRead_cases {c : ReadCall}
    (h : scullRead quantum qset dev c pos = .ok r) :
    SameQuanta dev r.dev ∧ r.dev.size = dev.size ∧
      ReadEnds quantum qset dev c pos r.ret r.pos := by
  rw [scullRead] at h
  split at h
  · next hsignal =>
      cases h
      exact ⟨SameQuanta.refl dev, rfl, .interrupted hsignal⟩
  next hsignal =>
  split at h
  · next hpos =>
      cases h
      exact ⟨SameQuanta.refl dev, rfl, .end hpos⟩
  next hpos =>
  split at h
  · cases h
  have hslot := slot_of_followed dev (place quantum qset pos).hops c.mallocs
    (place quantum qset pos).s_pos.toNat
  have hsame := sameQuanta_follow dev (place quantum qset pos).hops c.mallocs
  dsimp only at h
  split at h
  · next hnone =>
      cases h
      rw [hnone] at hslot
      exact ⟨hsame, rfl, .hole hslot⟩
  next ptrs hptrs =>
  rw [hptrs, Option.bind_some] at hslot
  split at h
  · cases h
  split at h
  · next hnone =>
      cases h
      exact ⟨hsame, rfl, .hole (hslot.trans hnone)⟩
  next q hq =>
  have hcount : (if pos + c.count > dev.size then dev.size - pos
      else c.count) = min c.count (dev.size - pos) := by
    split <;> omega
  rw [hcount] at h
  split at h
  · cases h
  next hcovers =>
  split at h
  · next hfault =>
      cases h
      exact ⟨hsame, rfl, .fault hfault⟩
  next hfault =>
  cases h
  exact ⟨hsame, rfl, .moved q _ (Bool.eq_false_iff.mpr hsignal)
    (Bool.eq_false_iff.mpr hfault) (Nat.lt_of_not_le hpos) (hslot.trans hq)
    rfl (not_not.mp hcovers)⟩

/-- The quantum in a slot and what `bytes` make of it. -/
structure Stored (dev dev' : ScullDev β) (p : Place) (q : Block β)
    (bytes : List β) : Prop where
  slot : ∀ n s, dev'.slot n s =
    if n = p.hops ∧ s = p.s_pos.toNat then
      some (q.store p.q_pos.toNat bytes)
    else dev.slot n s
  quantum : dev'.quantum = dev.quantum
  qset : dev'.qset = dev.qset
  covers : q.Covers p.q_pos bytes.length

/-- The ways `scull_write` ends. -/
inductive WriteEnds (quantum qset : Int) (dev : ScullDev β) (c : WriteCall β)
    (pos : Nat) : Section β → Prop where
  | interrupted (hsignal : c.signal = true) :
      WriteEnds quantum qset dev c pos ⟨.erestartsys, pos, dev⟩
  | nomem (dev' : ScullDev β) (hsame : SameQuanta dev dev')
      (hsize : dev'.size = dev.size) :
      WriteEnds quantum qset dev c pos ⟨.enomem, pos, dev'⟩
  | fault (dev' : ScullDev β) (q : Block β) (left : Nat → β)
      (hfault : c.fault = some left)
      (hq : (dev.slot (place quantum qset pos).hops
        (place quantum qset pos).s_pos.toNat).getD
          ⟨quantum.toNat, c.fresh⟩ = q)
      (hstored : Stored dev dev' (place quantum qset pos) q
        ((List.range (upToEnd quantum (place quantum qset pos)
          c.buf.length)).map left))
      (hsize : dev'.size = dev.size) :
      WriteEnds quantum qset dev c pos ⟨.efault, pos, dev'⟩
  | moved (dev' : ScullDev β) (q : Block β) (count : Nat)
      (hsignal : c.signal = false) (hfault : c.fault = none)
      (hcount : count = upToEnd quantum (place quantum qset pos) c.buf.length)
      (hq : (dev.slot (place quantum qset pos).hops
        (place quantum qset pos).s_pos.toNat).getD
          ⟨quantum.toNat, c.fresh⟩ = q)
      (hstored : Stored dev dev' (place quantum qset pos) q
        (c.buf.take count))
      (hsize : dev'.size = max dev.size (pos + count)) :
      WriteEnds quantum qset dev c pos
        ⟨.done (c.buf.take count), pos + count, dev'⟩

theorem upToEnd_le (quantum : Int) (p : Place) (count : Nat) :
    upToEnd quantum p count ≤ count :=
  Nat.min_le_left _ _

/-- An array in its place with one quantum written to. -/
theorem stored_put {d : Qset β} {ptrs : PtrArray β} {p : Place} {q : Block β}
    {bytes : List β} (hd : dev.data[p.hops]? = some d)
    (hptrs : ∀ s, ptrs.mem s = d.data.bind fun ptrs => ptrs.mem s)
    (hcovers : q.Covers p.q_pos bytes.length) :
    Stored dev (dev.setArray p.hops (ptrs.put p.s_pos.toNat
      (some (q.store p.q_pos.toNat bytes)))) p q bytes := by
  refine ⟨fun n s => ?_, rfl, rfl, hcovers⟩
  rw [slot_setArray hd]
  by_cases hn : n = p.hops
  · by_cases hs : s = p.s_pos.toNat
    · rw [if_pos hn, if_pos ⟨hn, hs⟩, hs]
      exact Function.update_self ..
    · rw [if_pos hn, if_neg (fun h => hs h.2), hn, slot_of_item hd, ← hptrs]
      exact Function.update_of_ne hs ..
  · rw [if_neg hn, if_neg (fun h => hn h.1)]

theorem SameQuanta.stored {dev' dev'' : ScullDev β} {p : Place}
    {q : Block β} {bytes : List β} (h : SameQuanta dev dev')
    (h' : Stored dev' dev'' p q bytes) : Stored dev dev'' p q bytes := by
  refine ⟨fun n s => ?_, h'.quantum.trans h.quantum, h'.qset.trans h.qset,
    h'.covers⟩
  rw [h'.slot, h.slot]

theorem slotQuantum_eq {slot : Option (Block β)} {fresh : Nat → β}
    {q : Block β} (h : slotQuantum slot quantum mallocs fresh = some q) :
    slot.getD ⟨quantum.toNat, fresh⟩ = q := by
  cases slot with
  | some q' => exact Option.some.inj h
  | none => exact Option.some.inj (Option.ite_none_right_eq_some.mp h).2

theorem grow_size (dev : ScullDev β) (pos : Nat) :
    (dev.grow pos).size = max dev.size pos := by
  show (if dev.size < pos then pos else dev.size) = _
  split <;> omega

theorem writeQuantum_cases {d : Qset β} {c : WriteCall β} {p : Place}
    {ptrs : PtrArray β} (hp : p = place quantum qset pos)
    (hsignal : c.signal = false) (hd : dev.data[p.hops]? = some d)
    (hptrs : ∀ s, ptrs.mem s = d.data.bind fun ptrs => ptrs.mem s)
    (h : writeQuantum quantum dev c pos p ptrs mallocs = .ok r) :
    WriteEnds quantum qset dev c pos r := by
  rw [writeQuantum] at h
  split at h
  · cases h
  have hslot : dev.slot p.hops p.s_pos.toNat = ptrs.mem p.s_pos.toNat := by
    rw [slot_of_item hd, hptrs]
  split at h
  · cases h
    exact .nomem _ (sameQuanta_setArray hd hptrs) rfl
  next q hq =>
  have hbase := slotQuantum_eq hq
  rw [← hslot] at hbase
  dsimp only at h
  split at h
  · cases h
  next hcovers =>
  have hcovers := not_not.mp hcovers
  subst hp
  split at h
  · next left hfault =>
      cases h
      refine .fault _ q left hfault hbase (stored_put hd hptrs ?_) rfl
      rw [List.length_map, List.length_range]
      exact hcovers
  · next hfault =>
      cases h
      have hcovers : q.Covers (place quantum qset pos).q_pos
          (c.buf.take (upToEnd quantum (place quantum qset pos)
            c.buf.length)).length := by
        rw [List.length_take_of_le (upToEnd_le ..)]
        exact hcovers
      have hstored := stored_put hd hptrs hcovers
      refine .moved _ q _ hsignal hfault rfl hbase
        ⟨hstored.slot, rfl, rfl, hstored.covers⟩ ?_
      exact grow_size ..

/-- A section that starts by following the list. -/
theorem WriteEnds.of_same {dev' : ScullDev β} {c : WriteCall β}
    (hsame : SameQuanta dev dev') (hsize : dev'.size = dev.size)
    (hsignal : c.signal = false) (h : WriteEnds quantum qset dev' c pos r) :
    WriteEnds quantum qset dev c pos r := by
  cases h with
  | interrupted hs =>
      rw [hsignal] at hs
      cases hs
  | nomem dev'' hsame' hsize' =>
      exact .nomem dev'' (hsame.trans hsame') (hsize'.trans hsize)
  | fault dev'' q left hfault hq hstored hsize' =>
      rw [hsame.slot] at hq
      exact .fault dev'' q left hfault hq (hsame.stored hstored)
        (hsize'.trans hsize)
  | moved dev'' q count _ hfault hcount hq hstored hsize' =>
      rw [hsame.slot] at hq
      rw [hsize] at hsize'
      exact .moved dev'' q count hsignal hfault hcount hq
        (hsame.stored hstored) hsize'

theorem scullWrite_cases {c : WriteCall β}
    (h : scullWrite quantum qset dev c pos = .ok r) :
    WriteEnds quantum qset dev c pos r := by
  rw [scullWrite] at h
  split at h
  · next hsignal =>
      cases h
      exact .interrupted hsignal
  next hsignal =>
  have hsignal := Bool.eq_false_iff.mpr hsignal
  split at h
  · cases h
  have hsame := sameQuanta_follow dev (place quantum qset pos).hops c.mallocs
  dsimp only at h
  split at h
  · cases h
    exact .nomem _ hsame rfl
  next d hhere =>
  have hd := scullFollow_here hhere
  split at h
  · cases h
    exact .nomem _ hsame rfl
  next ptrs mallocs hptrs =>
  exact (writeQuantum_cases rfl hsignal hd
    (array_mem (congrArg Prod.fst hptrs)) h).of_same hsame rfl hsignal

theorem WriteEnds.geometry_eq {c : WriteCall β}
    (h : WriteEnds quantum qset dev c pos r) :
    r.dev.quantum = dev.quantum ∧ r.dev.qset = dev.qset := by
  cases h with
  | interrupted _ => exact ⟨rfl, rfl⟩
  | nomem dev' hsame _ => exact ⟨hsame.quantum, hsame.qset⟩
  | fault dev' q left _ _ hstored _ => exact ⟨hstored.quantum, hstored.qset⟩
  | moved dev' q count _ _ _ _ hstored _ =>
      exact ⟨hstored.quantum, hstored.qset⟩

/-! ## Bounds -/

theorem intOf_bounds (n : Int) : -2 ^ 31 ≤ intOf n ∧ intOf n < 2 ^ 31 := by
  rw [intOf, Int.bmod_def]
  split <;> omega

/-- A product that overflows comes out smaller. -/
theorem natAbs_intOf_le {n : Int} (h : 0 ≤ n) :
    ((intOf n).natAbs : Int) ≤ n := by
  rw [intOf, Int.bmod_def]
  split <;> omega

/-- The offset of a position in its item. -/
theorem place_rest (pos : Nat) (hitem : itemsize quantum qset ≠ 0) :
    ∃ rest : Int, 0 ≤ rest ∧ rest < (itemsize quantum qset).natAbs ∧
      (place quantum qset pos).s_pos = rest.tdiv quantum ∧
      (place quantum qset pos).q_pos = rest.tmod quantum := by
  have hbound := intOf_bounds (quantum * qset)
  have hnonneg : 0 ≤ Int.tmod pos (itemsize quantum qset) :=
    Int.tmod_nonneg _ (Int.natCast_nonneg pos)
  have hlt : Int.tmod pos (itemsize quantum qset) <
      (itemsize quantum qset).natAbs := by
    have habs := Int.natAbs_tmod pos (itemsize quantum qset)
    have hmod := Nat.mod_lt (Int.natAbs pos)
      (Int.natAbs_pos.mpr hitem)
    omega
  have hrest : intOf (Int.tmod pos (itemsize quantum qset)) =
      Int.tmod pos (itemsize quantum qset) := by
    refine intOf_of_lt (by omega) ?_
    rw [itemsize] at hlt ⊢
    omega
  refine ⟨_, hnonneg, hlt, ?_, ?_⟩
  · show (intOf _).tdiv quantum = _
    rw [hrest]
  · show (intOf _).tmod quantum = _
    rw [hrest]

theorem place_bounds (pos : Nat) (hq : 0 < quantum) (hs : 0 < qset)
    (hitem : itemsize quantum qset ≠ 0) :
    0 ≤ (place quantum qset pos).s_pos ∧
      (place quantum qset pos).s_pos < qset ∧
      0 ≤ (place quantum qset pos).q_pos ∧
      (place quantum qset pos).q_pos < quantum := by
  obtain ⟨rest, hrest, hlt, hs_pos, hq_pos⟩ := place_rest pos hitem
  have hle := natAbs_intOf_le (Int.le_of_lt (Int.mul_pos hq hs))
  rw [itemsize] at hlt
  rw [hs_pos, hq_pos, Int.tdiv_eq_ediv_of_nonneg hrest,
    Int.tmod_eq_emod_of_nonneg hrest]
  refine ⟨Int.ediv_nonneg hrest hq.le, ?_, Int.emod_nonneg rest hq.ne',
    Int.emod_lt_of_pos rest hq⟩
  rw [Int.ediv_lt_iff_lt_mul hq, Int.mul_comm]
  omega

theorem sizeT_of_nonneg {n : Int} (h : 0 ≤ n) (hlt : n < 2 ^ 64) :
    (sizeT n : Int) = n := by
  rw [sizeT]
  omega

/-- The array has a slot for each index, the quanta in it their size. -/
structure ArrayFits (quantum qset : Int) (ptrs : PtrArray β) : Prop where
  size : (ptrs.size : Int) = qset
  quanta : ∀ s q, ptrs.mem s = some q → (q.size : Int) = quantum

/-- What was allocated fits the present geometry, which is of `int`s. -/
structure ScullDev.Fits (dev : ScullDev β) : Prop where
  arrays : ∀ d ∈ dev.data, ∀ ptrs, d.data = some ptrs →
    ArrayFits dev.quantum dev.qset ptrs
  quantum_lt : dev.quantum < 2 ^ 31
  le_qset : -2 ^ 31 ≤ dev.qset

theorem fits_follow (h : dev.Fits) (n : Nat) (mallocs : List Bool) :
    (dev.withItems (scullFollow n dev.data mallocs).items).Fits := by
  refine ⟨fun d hd ptrs hptrs => ?_, h.quantum_lt, h.le_qset⟩
  obtain ⟨k, hk⟩ := scullFollow_items n dev.data mallocs
  change d ∈ (scullFollow n dev.data mallocs).items at hd
  rw [hk] at hd
  rcases List.mem_append.mp hd with hold | hnew
  · exact h.arrays d hold ptrs hptrs
  · rw [List.eq_of_mem_replicate hnew] at hptrs
    cases hptrs

theorem fits_setArray (h : dev.Fits) {ptrs : PtrArray β}
    (hptrs : ArrayFits dev.quantum dev.qset ptrs) (n : Nat) :
    (dev.setArray n ptrs).Fits := by
  refine ⟨fun d hd ptrs' hptrs' => ?_, h.quantum_lt, h.le_qset⟩
  rcases List.mem_or_eq_of_mem_set hd with hold | hnew
  · exact h.arrays d hold ptrs' hptrs'
  · subst hnew
    cases hptrs'
    exact hptrs

theorem kmalloc_lt {size : Nat} (h : (kmalloc size mallocs).1 = true) :
    size < 2 ^ 63 := by
  cases mallocs with
  | nil => cases h
  | cons ok rest =>
      rw [kmalloc, Bool.and_eq_true, decide_eq_true_eq] at h
      exact h.2

theorem array_fits (h : dev.Fits) {d : Qset β} (hd : d ∈ dev.data)
    {ptrs : PtrArray β} (hptrs : (d.array dev.qset mallocs).1 = some ptrs) :
    ArrayFits dev.quantum dev.qset ptrs := by
  rw [Qset.array] at hptrs
  split at hptrs
  · next hdata =>
      cases hptrs
      exact h.arrays d hd ptrs hdata
  · obtain ⟨hok, hnew⟩ := Option.ite_none_right_eq_some.mp hptrs
    cases hnew
    refine ⟨?_, nofun⟩
    -- a negative number of pointers is never allocated
    have hsize := kmalloc_lt hok
    have hlo := h.le_qset
    rw [sizeT, POINTER_SIZE] at hsize
    show (dev.qset.toNat : Int) = dev.qset
    omega

/-- A copy that ends with its quantum. -/
theorem covers_upToEnd {q : Block β} (hsize : (q.size : Int) = quantum)
    (hlt : quantum < 2 ^ 31) {p : Place} (hlo : 0 ≤ p.q_pos)
    (hq_pos : p.q_pos < quantum) (count : Nat) :
    q.Covers p.q_pos (upToEnd quantum p count) := by
  have hle : (upToEnd quantum p count : Int) ≤ quantum - p.q_pos := by
    rw [← sizeT_of_nonneg (n := quantum - p.q_pos) (by omega) (by omega)]
    exact Int.ofNat_le.mpr (Nat.min_le_right _ _)
  exact ⟨hlo, by omega⟩

/-- The place of a position lies in an array that fits. -/
theorem ArrayFits.place {ptrs : PtrArray β}
    (h : ArrayFits quantum qset ptrs) (hq : 0 ≤ quantum)
    (hitem : itemsize quantum qset ≠ 0) (pos : Nat) :
    ptrs.Covers (place quantum qset pos).s_pos 1 ∧
      0 ≤ (place quantum qset pos).q_pos ∧
      (place quantum qset pos).q_pos < quantum := by
  have hpos : 0 < quantum ∧ 0 < qset := by
    have hsize := h.size
    constructor
    · by_contra hzero
      have hquantum : quantum = 0 := by omega
      rw [itemsize, hquantum, Int.zero_mul] at hitem
      exact hitem rfl
    · by_contra hzero
      have hqset : qset = 0 := by omega
      rw [itemsize, hqset, Int.mul_zero] at hitem
      exact hitem rfl
  obtain ⟨hlo, hlt, hq_lo, hq_lt⟩ := place_bounds pos hpos.1 hpos.2 hitem
  have hsize := h.size
  exact ⟨⟨hlo, by omega⟩, hq_lo, hq_lt⟩

/-- A read with the present geometry ends without a fault, but for a
division by zero. -/
theorem scullRead_ok (h : dev.Fits) (hq : 0 ≤ dev.quantum) (c : ReadCall)
    (pos : Nat) :
    (∃ r, scullRead dev.quantum dev.qset dev c pos = .ok r ∧ r.dev.Fits) ∨
      itemsize dev.quantum dev.qset = 0 ∧
        scullRead dev.quantum dev.qset dev c pos = .error .divideError := by
  rw [scullRead]
  split
  · exact Or.inl ⟨_, rfl, h⟩
  split
  · exact Or.inl ⟨_, rfl, h⟩
  split
  · next hzero => exact Or.inr ⟨hzero, rfl⟩
  next hitem =>
  left
  have hfollow := fits_follow h (place dev.quantum dev.qset pos).hops c.mallocs
  dsimp only
  split
  · exact ⟨_, rfl, hfollow⟩
  next ptrs hptrs =>
  obtain ⟨d, hd, hdata⟩ := Option.bind_eq_some_iff.mp hptrs
  have hfits : ArrayFits dev.quantum dev.qset ptrs :=
    hfollow.arrays d (List.mem_of_getElem? (scullFollow_here hd)) ptrs hdata
  obtain ⟨hcovers, hlo, hlt⟩ := hfits.place hq hitem pos
  rw [if_neg (not_not.mpr hcovers)]
  split
  · exact ⟨_, rfl, hfollow⟩
  next q hmem =>
  rw [if_neg (not_not.mpr (covers_upToEnd (hfits.quanta _ q hmem)
    h.quantum_lt hlo hlt _))]
  split
  · exact ⟨_, rfl, hfollow⟩
  · exact ⟨_, rfl, hfollow⟩

theorem slotQuantum_size {slot : Option (Block β)} {fresh : Nat → β}
    {q : Block β} (hq : 0 ≤ quantum)
    (hslot : ∀ q, slot = some q → (q.size : Int) = quantum)
    (h : slotQuantum slot quantum mallocs fresh = some q) :
    (q.size : Int) = quantum := by
  have hbase := slotQuantum_eq h
  cases slot with
  | some q' => exact hbase ▸ hslot q' rfl
  | none =>
      rw [← hbase]
      show (quantum.toNat : Int) = quantum
      omega

theorem ArrayFits.put {ptrs : PtrArray β} (h : ArrayFits quantum qset ptrs)
    {q : Block β} (hq : (q.size : Int) = quantum) (s : Nat) :
    ArrayFits quantum qset (ptrs.put s (some q)) := by
  refine ⟨h.size, fun s' q' hmem => ?_⟩
  change Function.update ptrs.mem s (some q) s' = some q' at hmem
  by_cases hs : s' = s
  · rw [hs, Function.update_self] at hmem
    cases hmem
    exact hq
  · rw [Function.update_of_ne hs] at hmem
    exact h.quanta s' q' hmem

/-- So does a write, and what it allocates fits as well. -/
theorem writeQuantum_ok (h : dev.Fits) (hq : 0 ≤ dev.quantum)
    (hitem : itemsize dev.quantum dev.qset ≠ 0) (c : WriteCall β) (pos : Nat)
    {ptrs : PtrArray β} (hptrs : ArrayFits dev.quantum dev.qset ptrs)
    (mallocs : List Bool) : ∃ r,
      writeQuantum dev.quantum dev c pos (place dev.quantum dev.qset pos) ptrs
        mallocs = .ok r ∧ r.dev.Fits := by
  obtain ⟨hcovers, hlo, hlt⟩ := hptrs.place hq hitem pos
  rw [writeQuantum, if_neg (not_not.mpr hcovers)]
  split
  · exact ⟨_, rfl, fits_setArray h hptrs _⟩
  next q hslot =>
  have hsize := slotQuantum_size hq (hptrs.quanta _) hslot
  dsimp only
  rw [if_neg (not_not.mpr (covers_upToEnd hsize h.quantum_lt hlo hlt _))]
  have hstored (bytes : List β) :
      (dev.setArray (place dev.quantum dev.qset pos).hops (ptrs.put
        (place dev.quantum dev.qset pos).s_pos.toNat (some (q.store
          (place dev.quantum dev.qset pos).q_pos.toNat bytes)))).Fits :=
    fits_setArray h (hptrs.put (q := q.store _ bytes) hsize _) _
  split
  · exact ⟨_, rfl, hstored _⟩
  · exact ⟨_, rfl, (hstored _).arrays, h.quantum_lt, h.le_qset⟩

theorem scullWrite_ok (h : dev.Fits) (hq : 0 ≤ dev.quantum)
    (c : WriteCall β) (pos : Nat) :
    (∃ r, scullWrite dev.quantum dev.qset dev c pos = .ok r ∧ r.dev.Fits) ∨
      itemsize dev.quantum dev.qset = 0 ∧
        scullWrite dev.quantum dev.qset dev c pos = .error .divideError := by
  rw [scullWrite]
  split
  · exact Or.inl ⟨_, rfl, h⟩
  split
  · next hzero => exact Or.inr ⟨hzero, rfl⟩
  next hitem =>
  left
  have hfits := fits_follow h (place dev.quantum dev.qset pos).hops c.mallocs
  dsimp only
  split
  · exact ⟨_, rfl, hfits⟩
  next d hhere =>
  have hd := List.mem_of_getElem? (scullFollow_here hhere)
  split
  · exact ⟨_, rfl, hfits⟩
  next ptrs mallocs hptrs =>
  exact writeQuantum_ok hfits hq hitem c pos
    (array_fits hfits hd (congrArg Prod.fst hptrs)) mallocs

end LearningLinux.ScullMem
