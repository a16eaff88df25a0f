import LearningLinux.Lib.DList
import LearningLinux.TimerList.Model

/-!
# The list a `sort_timer_lst` represents

`Represents s l` is the representation predicate: the timers of `l` are allocated
objects, `head` and `tail` are its ends, and the links are those of a doubly
linked list (`Lib.Seg`). `tail` is left unconstrained on the empty list,
because `tick` deletes the last timer without resetting it.

A field write through a live pointer is a plain update, `nexted` or
`preved`, and what such an update does to the two link functions and to the
expiration times is all the later proofs ever look at. With that, each
operation is one or two rules of `Lib/DList.lean`.
-/

namespace LearningLinux.TimerList

namespace SortTimerLst

variable {s : SortTimerLst} {a x : Nat}

/-- `a->next`, `a->prev` and `a->expire`, read wherever `a` is allocated. -/
def nxOf (s : SortTimerLst) (a : Nat) : Option Nat := (s.heap a).bind (·.next)
def pvOf (s : SortTimerLst) (a : Nat) : Option Nat := (s.heap a).bind (·.prev)
def expireOf (s : SortTimerLst) (a : Nat) : Int :=
  ((s.heap a).map (·.expire)).getD 0

def Live (s : SortTimerLst) (a : Nat) : Prop := (s.heap a).isSome = true

theorem deref_of_live (h : s.Live a) :
    s.deref (some a) = some ⟨s.expireOf a, s.pvOf a, s.nxOf a⟩ := by
  obtain ⟨t, ht⟩ := Option.isSome_iff_exists.mp h
  rw [deref, Option.bind_some, expireOf, pvOf, nxOf, ht]
  rfl

/-! ## Writing one link -/

def nexted (s : SortTimerLst) (a : Nat) (v : Option Nat) : SortTimerLst :=
  { s with
    heap := Function.update s.heap a
      ((s.heap a).map fun t => { t with next := v }) }

def preved (s : SortTimerLst) (a : Nat) (v : Option Nat) : SortTimerLst :=
  { s with
    heap := Function.update s.heap a
      ((s.heap a).map fun t => { t with prev := v }) }

variable {v : Option Nat}

theorem setNext_eq (h : s.Live a) : s.setNext (some a) v = some (s.nexted a v) := by
  obtain ⟨t, ht⟩ := Option.isSome_iff_exists.mp h
  simp [setNext, nexted, ht]

theorem setPrev_eq (h : s.Live a) : s.setPrev (some a) v = some (s.preved a v) := by
  obtain ⟨t, ht⟩ := Option.isSome_iff_exists.mp h
  simp [setPrev, preved, ht]

@[simp] theorem live_nexted : (s.nexted a v).Live x ↔ s.Live x := by
  by_cases hx : x = a
  · subst hx; simp [Live, nexted]
  · simp [Live, nexted, hx]

@[simp] theorem live_preved : (s.preved a v).Live x ↔ s.Live x := by
  by_cases hx : x = a
  · subst hx; simp [Live, preved]
  · simp [Live, preved, hx]

theorem nxOf_nexted_self (h : s.Live a) : (s.nexted a v).nxOf a = v := by
  obtain ⟨t, ht⟩ := Option.isSome_iff_exists.mp h
  simp [nxOf, nexted, ht]

theorem nxOf_nexted_ne (h : x ≠ a) : (s.nexted a v).nxOf x = s.nxOf x := by
  simp [nxOf, nexted, h]

@[simp] theorem pvOf_nexted : (s.nexted a v).pvOf x = s.pvOf x := by
  by_cases hx : x = a
  · subst hx; cases hs : s.heap x <;> simp [pvOf, nexted, hs]
  · simp [pvOf, nexted, hx]

theorem pvOf_preved_self (h : s.Live a) : (s.preved a v).pvOf a = v := by
  obtain ⟨t, ht⟩ := Option.isSome_iff_exists.mp h
  simp [pvOf, preved, ht]

theorem pvOf_preved_ne (h : x ≠ a) : (s.preved a v).pvOf x = s.pvOf x := by
  simp [pvOf, preved, h]

@[simp] theorem nxOf_preved : (s.preved a v).nxOf x = s.nxOf x := by
  by_cases hx : x = a
  · subst hx; cases hs : s.heap x <;> simp [nxOf, preved, hs]
  · simp [nxOf, preved, hx]

@[simp] theorem expireOf_nexted : (s.nexted a v).expireOf x = s.expireOf x := by
  by_cases hx : x = a
  · subst hx; cases hs : s.heap x <;> simp [expireOf, nexted, hs]
  · simp [expireOf, nexted, hx]

@[simp] theorem expireOf_preved : (s.preved a v).expireOf x = s.expireOf x := by
  by_cases hx : x = a
  · subst hx; cases hs : s.heap x <;> simp [expireOf, preved, hs]
  · simp [expireOf, preved, hx]

@[simp] theorem nexted_head : (s.nexted a v).head = s.head := rfl
@[simp] theorem nexted_tail : (s.nexted a v).tail = s.tail := rfl
@[simp] theorem nexted_numObjects :
    (s.nexted a v).numObjects = s.numObjects := rfl
@[simp] theorem preved_head : (s.preved a v).head = s.head := rfl
@[simp] theorem preved_tail : (s.preved a v).tail = s.tail := rfl
@[simp] theorem preved_numObjects :
    (s.preved a v).numObjects = s.numObjects := rfl

/-! ## Deleting an object -/

def deleted (s : SortTimerLst) (a : Nat) : SortTimerLst :=
  { s with
    heap := Function.update s.heap a none
    numObjects := s.numObjects - 1 }

theorem delete_eq (h : s.Live a) : s.delete (some a) = some (s.deleted a) := by
  obtain ⟨t, ht⟩ := Option.isSome_iff_exists.mp h
  simp [delete, deleted, ht]

theorem heap_deleted (h : x ≠ a) : (s.deleted a).heap x = s.heap x := by
  simp [deleted, h]

end SortTimerLst

open SortTimerLst

/-- The timers of `l` form the list `s` holds. -/
structure Represents (s : SortTimerLst) (l : List Nat) : Prop where
  nodup : l.Nodup
  live : ∀ a ∈ l, s.Live a
  head : s.head = l.head?
  tail : l ≠ [] → s.tail = l.getLast?
  links : Lib.Seg s.nxOf s.pvOf none l none
  count : l.length ≤ s.numObjects

/-- Expiration times do not decrease from `head` to `tail`. -/
def Ascending (ex : Nat → Int) (l : List Nat) : Prop :=
  l.Pairwise fun a b => ex a ≤ ex b

theorem Ascending.congr {ex ex' : Nat → Int} {l : List Nat}
    (h : Ascending ex l) (he : ∀ a ∈ l, ex' a = ex a) : Ascending ex' l := by
  refine List.Pairwise.imp_of_mem ?_ h
  intro a b ha hb hab
  rw [he a ha, he b hb]
  exact hab

/-- The two lists may be linked differently, but they have the same timers
with the same expiration times. -/
structure SameTimers (s s' : SortTimerLst) : Prop where
  expire : ∀ x, s'.expireOf x = s.expireOf x
  live : ∀ x, s'.Live x ↔ s.Live x
  count : s'.numObjects = s.numObjects

theorem SameTimers.refl (s : SortTimerLst) : SameTimers s s :=
  ⟨fun _ => rfl, fun _ => Iff.rfl, rfl⟩

theorem SameTimers.trans {s s' s'' : SortTimerLst} (h : SameTimers s s')
    (h' : SameTimers s' s'') : SameTimers s s'' where
  expire x := by rw [h'.expire, h.expire]
  live x := by rw [h'.live, h.live]
  count := by rw [h'.count, h.count]

/-- Reading the field of a node of the list through a pointer. -/
theorem Represents.deref {s : SortTimerLst} {l : List Nat} {a : Nat}
    (h : Represents s l) (ha : a ∈ l) :
    s.deref (some a) = some ⟨s.expireOf a, s.pvOf a, s.nxOf a⟩ :=
  deref_of_live (h.live a ha)

/-! ## Objects outside the list -/

section Outside

variable {s : SortTimerLst} {l : List Nat} {a : Nat} {v : Option Nat}

theorem Represents.nexted_outside (h : Represents s l) (ha : a ∉ l) :
    Represents (s.nexted a v) l where
  nodup := h.nodup
  live x hx := live_nexted.mpr (h.live x hx)
  head := h.head
  tail := h.tail
  links := h.links.congr
    (fun _ hx => nxOf_nexted_ne fun he => ha (he ▸ hx)) (fun _ _ => pvOf_nexted)
  count := h.count

theorem Represents.deleted_outside (h : Represents s l) (ha : a ∉ l)
    (hcount : l.length + 1 ≤ s.numObjects) : Represents (s.deleted a) l := by
  have hheap : ∀ x ∈ l, (s.deleted a).heap x = s.heap x := fun x hx =>
    heap_deleted fun he => ha (he ▸ hx)
  refine ⟨h.nodup, fun x hx => ?_, h.head, h.tail, ?_, ?_⟩
  · rw [Live, hheap x hx]
    exact h.live x hx
  · exact h.links.congr (fun x hx => by rw [nxOf, hheap x hx, nxOf])
      (fun x hx => by rw [pvOf, hheap x hx, pvOf])
  · show l.length ≤ s.numObjects - 1
    omega

end Outside

theorem expireOf_deleted {s : SortTimerLst} {a x : Nat} (h : x ≠ a) :
    (s.deleted a).expireOf x = s.expireOf x := by
  rw [expireOf, heap_deleted h, expireOf]

/-! ## The nodes, followed from `head` -/

def walk (s : SortTimerLst) : Nat → Option Nat → List Nat
  | 0, _ => []
  | _ + 1, none => []
  | fuel + 1, some a => a :: walk s fuel (s.nxOf a)

/-- The timers reached from `head` by following `next`. -/
def nodes (s : SortTimerLst) : List Nat := walk s s.numObjects s.head

theorem walk_eq {s : SortTimerLst} : ∀ {l : List Nat} {p : Option Nat} {fuel : Nat},
    Lib.Seg s.nxOf s.pvOf p l none → l.length ≤ fuel →
    walk s fuel l.head? = l := by
  intro l
  induction l with
  | nil => intro p fuel _ _; cases fuel <;> rfl
  | cons a l ih =>
      intro p fuel h hf
      obtain ⟨n, rfl⟩ : ∃ n, fuel = n + 1 :=
        ⟨fuel - 1, by simp only [List.length_cons] at hf; omega⟩
      obtain ⟨-, hn, hrest⟩ := Lib.seg_cons.mp h
      rw [List.head?_cons, walk, hn, Option.or_none, ih hrest (by simpa using hf)]

theorem Represents.nodes_eq {s : SortTimerLst} {l : List Nat} (h : Represents s l) :
    nodes s = l := by
  rw [nodes, h.head]
  exact walk_eq h.links h.count

end LearningLinux.TimerList
