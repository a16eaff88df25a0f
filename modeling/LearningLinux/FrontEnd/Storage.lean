import LearningLinux.FrontEnd.Actions
import Mathlib.Data.Int.ConditionallyCompleteOrder
import Mathlib.Data.Set.Basic
import Mathlib.Data.Set.BooleanAlgebra
import Mathlib.Order.CompletePartialOrder
import Mathlib.Order.ConditionallyCompleteLattice.Basic
import Mathlib.Order.Interval.Set.Basic

/-!
# Storage allocation

The offset of an identifier is what `used` was when it was declared, and
`used` grows by the widths of the declared types. Widths and `used` are
`int`s, computed with wrap-around and never checked. Measured against the
exact sizes, the offsets are the exact running sums reduced to an `int`, and
so the storage of identifiers overlaps, or starts below 0, as soon as an
identifier that has a size is declared at an exact sum of `2 ^ 31` or more.
-/

namespace LearningLinux.FrontEnd

open Lib

/-! ## Exact sizes -/

/-- The size of a type, from the dimensions as they were written. -/
def Ty.exactWidth : Ty → Nat
  | .basic b => b.width
  | .array size of => size.lit * of.exactWidth

theorem wrap_add_wrap (a b : Int) : wrap (wrap a + wrap b) = wrap (a + b) := by
  rw [wrap, wrap, wrap, wrap, Int.bmod_add_bmod, Int.add_bmod_bmod]

theorem wrap_mul_wrap (a b : Int) : wrap (wrap a * wrap b) = wrap (a * b) := by
  rw [wrap, wrap, wrap, wrap, Int.bmod_mul_bmod, Int.mul_bmod_bmod]

theorem Ty.width_eq (t : Ty) : t.width = wrap t.exactWidth := by
  induction t with
  | basic b => cases b <;> decide
  | array size of ih =>
      rw [Ty.width, Ty.exactWidth, ih, size.value_eq, wrap_mul_wrap]
      push_cast
      rfl

/-- The `int` of a sum is not negative in the lower half of its range. -/
theorem wrap_nonneg_iff (n : Nat) :
    0 ≤ wrap n ↔ n % 2 ^ 32 < 2 ^ 31 := by
  rw [wrap, Int.bmod_def]
  split <;> omega

theorem wrap_of_lt {n : Nat} (h : n < 2 ^ 31) : wrap n = n := by
  rw [wrap, Int.bmod_def]
  split <;> omega

theorem wrap_lt (n : Nat) : wrap n < 2 ^ 31 := by
  rw [wrap, Int.bmod_def]
  split <;> omega

/-! ## The declarations of a log -/

def Event.declared : Event → Option Id
  | .decl id => some id
  | _ => none

/-- The identifiers declared so far, the latest first. -/
def declared (log : List Event) : List Id := log.filterMap Event.declared

def sizes (ids : List Id) : List Nat := ids.map fun i => i.type.exactWidth

/-- The exact size of all of them together. -/
def total (ids : List Id) : Nat := (sizes ids).sum

/-- Every identifier stands at the `int` of the exact size of those before
it. -/
def LaidOut : List Id → Prop
  | [] => True
  | i :: before => i.offset = wrap (total before) ∧ LaidOut before

/-- `used` is the `int` of the exact size of everything declared. -/
def Allocated (e : Sem) : Prop :=
  LaidOut (declared e.log) ∧ e.used = wrap (total (declared e.log))

theorem Allocated.declare {w : Word} {p : Ty} {e e' : Sem} {u : Unit}
    (h : Allocated e) (hd : declare w p e = .ok (u, e')) : Allocated e' := by
  obtain ⟨hlaid, hused⟩ := h
  obtain ⟨table, prev, -, -, rfl⟩ := declare_ok.mp hd
  refine ⟨⟨hused, hlaid⟩, ?_⟩
  show wrap (e.used + p.width) =
    wrap ((p.exactWidth + total (declared e.log) : Nat) : Int)
  rw [hused, p.width_eq, wrap_add_wrap, Int.add_comm]
  push_cast
  rfl

theorem allocated_rel :
    ActRel fun e e' => Allocated e → Allocated e' where
  refl _ := id
  trans h h' := h' ∘ h
  resolve h ha := by
    rw [(resolve_ok.mp h).2]
    exact ha
  declare h ha := ha.declare h
  assignSep _ := id
  block h := h
  loop h := h

/-! ## When the ranges are apart -/

/-- The bytes of an identifier. -/
def Id.bytes (i : Id) : Set Int :=
  Set.Ico i.offset (i.offset + i.type.exactWidth)

/-- The storage of a program is well allocated. -/
def WellStored (ids : List Id) : Prop :=
  (∀ i ∈ ids, 0 ≤ i.offset) ∧
    ids.Pairwise fun i j => Disjoint i.bytes j.bytes

/-- Of the exact sizes in the order of declaration, the latest first: each
that is not 0 comes at an exact sum below `2 ^ 31`, and each that is 0 at a
sum whose `int` is not negative. -/
def FitsInt : List Nat → Prop
  | [] => True
  | n :: before => FitsInt before ∧
      (if n = 0 then before.sum % 2 ^ 32 < 2 ^ 31 else before.sum < 2 ^ 31)

instance decidableFitsInt : ∀ ns : List Nat, Decidable (FitsInt ns)
  | [] => inferInstanceAs (Decidable True)
  | _ :: before =>
      have := decidableFitsInt before
      inferInstanceAs (Decidable (_ ∧ _))

theorem Id.mem_bytes {i : Id} {x : Int} :
    x ∈ i.bytes ↔ i.offset ≤ x ∧ x < i.offset + i.type.exactWidth := Iff.rfl

theorem total_cons (i : Id) (before : List Id) :
    total (i :: before) = i.type.exactWidth + total before := rfl

theorem fitsInt_cons {i : Id} {before : List Id} :
    FitsInt (sizes (i :: before)) ↔ FitsInt (sizes before) ∧
      (if i.type.exactWidth = 0 then total before % 2 ^ 32 < 2 ^ 31
        else total before < 2 ^ 31) := Iff.rfl

/-- As long as they fit, the identifiers cover everything below `total`. -/
theorem FitsInt.covers {ids : List Id} (hlaid : LaidOut ids)
    (hfit : FitsInt (sizes ids)) {x : Int} (hlo : 0 ≤ x) (hhi : x < total ids) :
    ∃ j ∈ ids, x ∈ j.bytes := by
  induction ids with
  | nil =>
      have hzero : total [] = 0 := rfl
      omega
  | cons i before ih =>
      obtain ⟨hoff, hlaid'⟩ := hlaid
      obtain ⟨hfit', hi⟩ := fitsInt_cons.mp hfit
      rw [total_cons] at hhi
      by_cases hx : x < total before
      · obtain ⟨j, hj, hmem⟩ := ih hlaid' hfit' hx
        exact ⟨j, List.mem_cons_of_mem i hj, hmem⟩
      · have hne : i.type.exactWidth ≠ 0 := by omega
        rw [if_neg hne] at hi
        refine ⟨i, List.mem_cons_self, ?_⟩
        rw [Id.mem_bytes, hoff, wrap_of_lt hi]
        omega

/-- And nothing beyond. -/
theorem FitsInt.below {ids : List Id} (hlaid : LaidOut ids)
    (hfit : FitsInt (sizes ids)) {j : Id} (hj : j ∈ ids) {x : Int}
    (hx : x ∈ j.bytes) : x < total ids := by
  induction ids with
  | nil => cases hj
  | cons i before ih =>
      obtain ⟨hoff, hlaid'⟩ := hlaid
      obtain ⟨hfit', hi⟩ := fitsInt_cons.mp hfit
      rw [total_cons]
      rcases List.mem_cons.mp hj with rfl | hj'
      · rw [Id.mem_bytes] at hx
        have hne : j.type.exactWidth ≠ 0 := by omega
        rw [if_neg hne] at hi
        rw [hoff, wrap_of_lt hi] at hx
        omega
      · have hlt := ih hlaid' hfit' hj'
        omega

/-- The latest identifier, when those before it fit. -/
theorem stored_head_iff {i : Id} {before : List Id}
    (hoff : i.offset = wrap (total before)) (hlaid : LaidOut before)
    (hfit : FitsInt (sizes before)) :
    (0 ≤ i.offset ∧ ∀ j ∈ before, Disjoint i.bytes j.bytes) ↔
      if i.type.exactWidth = 0 then total before % 2 ^ 32 < 2 ^ 31
        else total before < 2 ^ 31 := by
  by_cases hw : i.type.exactWidth = 0
  · rw [if_pos hw, ← wrap_nonneg_iff, ← hoff]
    refine ⟨fun h => h.1, fun h => ⟨h, fun j hj => ?_⟩⟩
    rw [Set.disjoint_left]
    intro x hx
    rw [Id.mem_bytes] at hx
    omega
  · rw [if_neg hw]
    constructor
    · -- Otherwise its first byte belongs to an earlier identifier.
      intro ⟨hpos, hdisj⟩
      by_contra hlarge
      have hlt := wrap_lt (total before)
      rw [← hoff] at hlt
      obtain ⟨j, hj, hmem⟩ := hfit.covers hlaid hpos (by omega)
      have hself : i.offset ∈ i.bytes := Id.mem_bytes.mpr (by omega)
      exact Set.disjoint_left.mp (hdisj j hj) hself hmem
    · intro hlt
      rw [wrap_of_lt hlt] at hoff
      refine ⟨by omega, fun j hj => Set.disjoint_left.mpr ?_⟩
      intro x hx hxj
      have hbelow := hfit.below hlaid hj hxj
      rw [Id.mem_bytes] at hx
      omega

theorem LaidOut.wellStored_iff {ids : List Id} (hlaid : LaidOut ids) :
    WellStored ids ↔ FitsInt (sizes ids) := by
  induction ids with
  | nil => exact ⟨fun _ => trivial, fun _ => ⟨by simp, List.Pairwise.nil⟩⟩
  | cons i before ih =>
      obtain ⟨hoff, hlaid'⟩ := hlaid
      have hsplit : WellStored (i :: before) ↔ WellStored before ∧
          (0 ≤ i.offset ∧ ∀ j ∈ before, Disjoint i.bytes j.bytes) := by
        simp only [WellStored, List.forall_mem_cons, List.pairwise_cons]
        grind
      rw [hsplit, fitsInt_cons, ih hlaid']
      exact and_congr_right fun hfit => stored_head_iff hoff hlaid' hfit

/-! ## Accepted programs -/

theorem program_wellStored_iff {toks : List Token} {o : Output}
    (h : program toks = .ok o) :
    WellStored (declared o.log) ↔ FitsInt (sizes (declared o.log)) := by
  obtain ⟨e, hlog, hrel⟩ := program_rel allocated_rel h
  have hinit : Allocated Sem.init :=
    ⟨trivial, (wrap_of_lt (n := 0) (by decide)).symm⟩
  rw [hlog]
  exact (hrel hinit).1.wellStored_iff

/-- The last array may end beyond the range of an `int`. -/
theorem program_wellStored_large : ∃ o : Output,
    main ("\x7b int a; \x7b float[2][3] b; char c; \x7d " ++
      "char[4000000000] d; \x7d") = .ok o ∧
      WellStored (declared o.log) := by
  obtain ⟨o, ho, hfit⟩ := exists_of_okAnd
    (p := fun o => decide (FitsInt (sizes (declared o.log))))
    (x := main ("\x7b int a; \x7b float[2][3] b; char c; \x7d " ++
      "char[4000000000] d; \x7d")) (by decide +kernel)
  exact ⟨o, ho, (program_wellStored_iff ho).mpr (of_decide_eq_true hfit)⟩

/-- `2 ^ 30` integers have the width 0, so what is declared next starts
where they do. -/
theorem not_wellStored_overflow : ∃ o : Output,
    main "\x7b int[1073741824] a; int b; \x7d" = .ok o ∧
      ¬ WellStored (declared o.log) := by
  obtain ⟨o, ho, hids⟩ := exists_of_okAnd
    (p := fun o => decide ((declared o.log).map (fun i =>
      (i.offset, i.type.exactWidth)) = [(0, 4), (0, 4294967296)]))
    (x := main "\x7b int[1073741824] a; int b; \x7d") (by decide +kernel)
  refine ⟨o, ho, fun hstored => ?_⟩
  have hids' := of_decide_eq_true hids
  match hlog : declared o.log with
  | [] => rw [hlog] at hids'; cases hids'
  | [b] => rw [hlog] at hids'; simp at hids'
  | [b, a] =>
      rw [hlog] at hids' hstored
      simp only [List.map_cons, List.map_nil, List.cons.injEq,
        Prod.mk.injEq, and_true] at hids'
      obtain ⟨⟨hb, hwb⟩, ha, hwa⟩ := hids'
      have hdisj := (List.pairwise_cons.mp hstored.2).1 a List.mem_cons_self
      have hmemb : (0 : Int) ∈ b.bytes := by
        rw [Id.mem_bytes, hb, hwb]
        decide
      have hmema : (0 : Int) ∈ a.bytes := by
        rw [Id.mem_bytes, ha, hwa]
        decide
      exact Set.disjoint_left.mp hdisj hmemb hmema
  | _ :: _ :: _ :: _ =>
      rw [hlog] at hids'
      simp at hids'

end LearningLinux.FrontEnd
