import LearningLinux.FrontEnd.Storage
import LearningLinux.FrontEnd.Translation
import LearningLinux.Lib.RowMajor

/-!
# Array references

`offset` builds the location of `a[e1]...[ek]` from left to right, peeling one
level off the type for each subscript, while `dims` has put the type together
from right to left. As long as the array has less than `2 ^ 31` bytes and the
subscripts keep to its dimensions, the location is the row-major address: each
partial sum, with the size that is left behind it, stays inside the array, so
that no `int` overflows on the way.
-/

namespace LearningLinux.FrontEnd

open Lib

/-! ## Array types -/

/-- The dimensions, as they were written. -/
def Ty.dims : Ty → List Nat
  | .basic _ => []
  | .array size of => size.lit :: of.dims

/-- The width of the elements. -/
def Ty.unit : Ty → Nat
  | .basic b => b.width
  | .array _ of => of.unit

/-- The type left after `j` subscripts. -/
def Ty.left : Ty → Nat → Ty
  | .array _ of, j + 1 => of.left j
  | t, _ => t

/-- The sum of the subscripts, each times the width of the type that is left
after it. -/
def Ty.offsetOf (t : Ty) (is : List Nat) : Nat :=
  ∑ j : Fin is.length, is[j] * (t.left (j + 1)).exactWidth

/-- The bytes that the subscripts `is` address. -/
def Ty.range (t : Ty) (is : List Nat) : Set Nat :=
  Set.Ico (t.offsetOf is) (t.offsetOf is + (t.left is.length).exactWidth)

theorem Ty.exactWidth_eq (t : Ty) :
    t.exactWidth = RowMajor.size t.unit t.dims := by
  induction t with
  | basic b => rw [Ty.exactWidth, Ty.dims, Ty.unit, RowMajor.size, List.prod_nil,
      Nat.one_mul]
  | array size of ih => rw [Ty.exactWidth, Ty.dims, Ty.unit, RowMajor.size_cons, ih]

theorem Ty.left_dims {t : Ty} {k : Nat} (h : k ≤ t.dims.length) :
    (t.left k).dims = t.dims.drop k ∧ (t.left k).unit = t.unit := by
  induction t generalizing k with
  | basic b => cases k <;> exact ⟨rfl, rfl⟩
  | array size of ih =>
      cases k with
      | zero => exact ⟨rfl, rfl⟩
      | succ k => exact ih (Nat.le_of_succ_le_succ h)

theorem Ty.left_exactWidth {t : Ty} {k : Nat} (h : k ≤ t.dims.length) :
    (t.left k).exactWidth = RowMajor.size t.unit (t.dims.drop k) := by
  rw [Ty.exactWidth_eq, (Ty.left_dims h).1, (Ty.left_dims h).2]

/-- The sum is the row-major address. -/
theorem Ty.offsetOf_eq {t : Ty} {is : List Nat}
    (h : RowMajor.Within t.dims is) :
    t.offsetOf is = RowMajor.address t.unit t.dims is := by
  rw [h.address_eq_sum, Ty.offsetOf]
  refine Finset.sum_congr rfl fun j _ => ?_
  rw [Ty.left_exactWidth (Nat.le_trans j.isLt h.length_le)]
  rfl

theorem Ty.range_eq {t : Ty} {is : List Nat} (h : RowMajor.Within t.dims is) :
    t.range is = RowMajor.block t.unit t.dims is := by
  rw [Ty.range, RowMajor.block, Ty.offsetOf_eq h, Ty.left_exactWidth h.length_le]

/-! ## The subscripts of a reference -/

/-- From `s` to `s'` the parser reads `[e]` for each `e` of a list, and no
further `[` follows. -/
inductive Reads (bool : P Expr) : List Expr → PState → PState → Prop where
  | last {e : Expr} {s s₁ s₂ s' : PState}
      (hopen : matchTok (.chr '[') s = .ok ((), s₁))
      (he : bool s₁ = .ok (e, s₂))
      (hclose : matchTok (.chr ']') s₂ = .ok ((), s'))
      (hend : s'.toks.headD Token.eof ≠ .chr '[') : Reads bool [e] s s'
  | more {e : Expr} {es : List Expr} {s s₁ s₂ s₃ s' : PState}
      (hopen : matchTok (.chr '[') s = .ok ((), s₁))
      (he : bool s₁ = .ok (e, s₂))
      (hclose : matchTok (.chr ']') s₂ = .ok ((), s₃))
      (hrest : Reads bool es s₃ s') : Reads bool (e :: es) s s'

theorem Reads.head {b : P Expr} {es : List Expr} {s s' : PState}
    (h : Reads b es s s') : s.toks.headD Token.eof = .chr '[' := by
  cases h with
  | last hopen => rw [((matchTok_ok (by decide)).mp hopen).1, List.headD_cons]
  | more hopen => rw [((matchTok_ok (by decide)).mp hopen).1, List.headD_cons]

/-- The state determines what is read. -/
theorem Reads.unique {b : P Expr} {es es' : List Expr} {s s' s'' : PState}
    (h : Reads b es s s') (h' : Reads b es' s s'') : es = es' := by
  induction h generalizing es' with
  | last hopen he hclose hend =>
      cases h' with
      | last hopen' he' hclose' hend' =>
          cases hopen.symm.trans hopen'
          cases he.symm.trans he'
          rfl
      | more hopen' he' hclose' hrest' =>
          cases hopen.symm.trans hopen'
          cases he.symm.trans he'
          cases hclose.symm.trans hclose'
          exact absurd hrest'.head hend
  | more hopen he hclose hrest ih =>
      cases h' with
      | last hopen' he' hclose' hend' =>
          cases hopen.symm.trans hopen'
          cases he.symm.trans he'
          cases hclose.symm.trans hclose'
          exact absurd hrest.head hend'
      | more hopen' he' hclose' hrest' =>
          cases hopen.symm.trans hopen'
          cases he.symm.trans he'
          cases hclose.symm.trans hclose'
          rw [ih hrest']

/-- The loop of `offset`, without the parsing. -/
def locate (loc : Expr) (type : Ty) : List Expr → Except Err (Expr × Ty)
  | [] => .ok (loc, type)
  | e :: es => do
      let (t1, type) ← scale e type
      let t2 ← newArith .add loc t1
      locate t2 type es

/-- `offset` as a whole, without the parsing. -/
def locateFirst (type : Ty) : List Expr → Except Err (Expr × Ty)
  | [] => .error (.error "syntax error")
  | e :: es => do
      let (t1, type) ← scale e type
      locate t1 type es

theorem subscript_reads {b : P Expr} {type type' : Ty} {t1 : Expr}
    {s s' : PState} (h : subscript b type s = .ok ((t1, type'), s')) :
    ∃ e s₁ s₂, matchTok (.chr '[') s = .ok ((), s₁) ∧ b s₁ = .ok (e, s₂) ∧
      matchTok (.chr ']') s₂ = .ok ((), s') ∧ scale e type = .ok (t1, type') := by
  rw [subscript, bind_ok] at h
  obtain ⟨⟨⟩, s₁, hopen, h₁⟩ := h
  obtain ⟨e, s₂, he, h₂⟩ := bind_ok.mp h₁
  obtain ⟨⟨⟩, s₃, hclose, h₃⟩ := bind_ok.mp h₂
  obtain ⟨hscale, rfl⟩ := actLift_ok.mp h₃
  exact ⟨e, s₁, s₂, hopen, he, hclose, hscale⟩

/-- The loop either ends at once or reads on. -/
theorem offsetLoop_reads {b : P Expr} {fuel : Nat} {loc loc' : Expr}
    {type type' : Ty} {s s' : PState}
    (h : offsetLoop b fuel loc type s = .ok ((loc', type'), s')) :
    ∃ es, locate loc type es = .ok (loc', type') ∧
      ((es = [] ∧ s' = s ∧ s.toks.headD Token.eof ≠ .chr '[') ∨
        Reads b es s s') := by
  induction fuel generalizing loc type s with
  | zero => cases h
  | succ fuel ih =>
      rw [offsetLoop, look_bind] at h
      by_cases hb : s.toks.headD Token.eof = .chr '['
      · rw [if_pos hb, bind_ok] at h
        obtain ⟨⟨t1, type₁⟩, s₁, hsub, h₁⟩ := h
        obtain ⟨t2, s₂, hadd, h₂⟩ := bind_ok.mp h₁
        obtain ⟨hadd', rfl⟩ := actLift_ok.mp hadd
        obtain ⟨e, s₃, s₄, hopen, he, hclose, hscale⟩ := subscript_reads hsub
        obtain ⟨es, hloc, hes⟩ := ih h₂
        refine ⟨e :: es, ?_, Or.inr ?_⟩
        · rw [locate, hscale]
          show (newArith .add loc t1 >>= _) = _
          rw [hadd']
          exact hloc
        · rcases hes with ⟨rfl, rfl, hend⟩ | hreads
          · exact .last hopen he hclose hend
          · exact .more hopen he hclose hreads
      · rw [if_neg hb] at h
        cases h
        exact ⟨[], rfl, Or.inl ⟨rfl, rfl, hb⟩⟩

theorem offset_reads {fuel : Nat} {a : Id} {loc : Expr} {type : Ty}
    {s s' : PState} (h : offset (fuel + 1) a s = .ok ((loc, type), s')) :
    ∃ es, Reads (bool fuel) es s s' ∧
      locateFirst a.type es = .ok (loc, type) := by
  rw [offset, bind_ok] at h
  obtain ⟨⟨t1, type₁⟩, s₁, hsub, hloop⟩ := h
  obtain ⟨e, s₂, s₃, hopen, he, hclose, hscale⟩ := subscript_reads hsub
  obtain ⟨es, hloc, hes⟩ := offsetLoop_reads hloop
  refine ⟨e :: es, ?_, ?_⟩
  · rcases hes with ⟨rfl, rfl, hend⟩ | hreads
    · exact .last hopen he hclose hend
    · exact .more hopen he hclose hreads
  · rw [locateFirst, hscale]
    exact hloc

/-! ## Values -/

section Values

variable {V : Type} {I : Interp V} {m : Mem V} {type type' : Ty}

/-- Sums and products of integers are right where they have less than 32
bits. -/
structure Interp.ComputesInts (I : Interp V) : Prop where
  add : ∀ a b : Nat, a + b < 2 ^ 31 →
    I.arith .add (I.num a) (I.num b) = some (I.num (a + b : Nat))
  mul : ∀ a b : Nat, a * b < 2 ^ 31 →
    I.arith .mul (I.num a) (I.num b) = some (I.num (a * b : Nat))

/-- The subscripts have the integers `is` as values. -/
def Values (I : Interp V) (m : Mem V) (es : List Expr) (is : List Nat) :
    Prop :=
  List.Forall₂ (fun e (i : Nat) => e.eval I m = some (I.num i)) es is

theorem eval_arith (op : ArithOp) {x y : Expr} {v w : V}
    (hx : x.eval I m = some v) (hy : y.eval I m = some w) :
    (Expr.arith op x y).eval I m = I.arith op v w := by
  rw [Expr.eval, hx, hy]
  rfl

/-- One subscript, in an array that leaves `type'`. -/
theorem scale_eval (hI : I.ComputesInts) {e t1 : Expr} {i : Nat}
    (h : scale e type = .ok (t1, type'))
    (he : e.eval I m = some (I.num i)) (hwidth : type'.exactWidth < 2 ^ 31)
    (hlt : i * type'.exactWidth < 2 ^ 31) :
    t1.eval I m = some (I.num (i * type'.exactWidth : Nat)) := by
  obtain ⟨size, -, hmul⟩ := scale_ok.mp h
  obtain ⟨rfl, -⟩ := typed_ok.mp hmul
  have hconst : (Expr.const (.num type'.width)).eval I m =
      some (I.num (type'.exactWidth : Nat)) := by
    rw [Ty.width_eq, wrap_of_lt hwidth]
    rfl
  rw [eval_arith .mul he hconst, hI.mul _ _ hlt]

/-- The invariant of the loop: what has been summed up, and the size that is
left, stay inside the array. -/
theorem locate_eval (hI : I.ComputesInts) {es : List Expr} {is : List Nat}
    (hes : Values I m es is) {loc loc' : Expr} {acc : Nat}
    (h : locate loc type es = .ok (loc', type'))
    (hloc : loc.eval I m = some (I.num acc))
    (hin : RowMajor.Within type.dims is)
    (hfit : acc + type.exactWidth < 2 ^ 31) :
    loc'.eval I m = some (I.num
        (acc + RowMajor.address type.unit type.dims is : Nat)) ∧
      type' = type.left is.length := by
  induction hes generalizing loc type acc with
  | nil =>
      cases h
      refine ⟨?_, by cases type' <;> rfl⟩
      rw [hloc, RowMajor.address_nil, Nat.add_zero]
  | @cons e i es is he hes ih =>
      obtain ⟨⟨t1, of⟩, hscale, h₁⟩ := except_bind_ok.mp h
      obtain ⟨t2, hadd, h₂⟩ := except_bind_ok.mp h₁
      obtain ⟨size, rfl, -⟩ := scale_ok.mp hscale
      obtain ⟨rfl, -⟩ := typed_ok.mp hadd
      have hrow := RowMajor.succ_mul_le (s := of.exactWidth) hin.1
      rw [Ty.exactWidth] at hfit
      have ht1 := scale_eval hI hscale he (by omega) (by omega)
      have ht2 := eval_arith .add hloc ht1
      rw [hI.add _ _ (by omega)] at ht2
      obtain ⟨hval, htype⟩ := ih h₂ ht2 hin.2 (by omega)
      refine ⟨?_, htype⟩
      rw [hval, Ty.dims, Ty.unit, RowMajor.address, ← Ty.exactWidth_eq,
        Nat.add_assoc]

/-- The first subscript starts the sum. -/
theorem locateFirst_eval (hI : I.ComputesInts) {es : List Expr}
    {is : List Nat} (hes : Values I m es is) {loc : Expr}
    (h : locateFirst type es = .ok (loc, type'))
    (hin : RowMajor.Within type.dims is) (hfit : type.exactWidth < 2 ^ 31) :
    loc.eval I m = some (I.num
        (RowMajor.address type.unit type.dims is : Nat)) ∧
      type' = type.left is.length := by
  cases hes with
  | nil => cases h
  | @cons e i es is he hes =>
      obtain ⟨⟨t1, of⟩, hscale, hloc⟩ := except_bind_ok.mp h
      obtain ⟨size, rfl, -⟩ := scale_ok.mp hscale
      have hrow := RowMajor.succ_mul_le (s := of.exactWidth) hin.1
      rw [Ty.exactWidth] at hfit
      have ht1 := scale_eval hI hscale he (by omega) (by omega)
      obtain ⟨hval, htype⟩ := locate_eval hI hes hloc ht1 hin.2 (by omega)
      refine ⟨?_, htype⟩
      rw [hval, Ty.dims, Ty.unit, RowMajor.address, ← Ty.exactWidth_eq]

end Values

/-- Integers of 32 bits, which wrap around. -/
def int32Interp : Interp Int :=
  { intInterp with
    arith := fun op v w => (intInterp.arith op v w).map wrap
    minus := fun v => some (wrap (-v)) }

theorem int32Interp_computesInts : int32Interp.ComputesInts where
  add _ _ h := congrArg some (wrap_of_lt h)
  mul _ _ h := congrArg some (wrap_of_lt h)

/-! ## The references that `offset` accepts -/

/-- A reference to `a` reads subscripts. Wherever their values keep to the
dimensions of `a`, the location is their row-major address, and references
with other subscripts are apart from it. -/
theorem offset_rowMajor {V : Type} {I : Interp V} (hI : I.ComputesInts)
    {fuel : Nat} {a : Id} {loc : Expr} {type : Ty} {s s' : PState}
    (hsize : a.type.dims.prod * a.type.unit < 2 ^ 31)
    (h : offset (fuel + 1) a s = .ok ((loc, type), s')) :
    ∃ es, Reads (bool fuel) es s s' ∧
      ∀ m is, Values I m es is → RowMajor.Within a.type.dims is →
        loc.eval I m = some (I.num (a.type.offsetOf is : Nat)) ∧
        type = a.type.left is.length ∧
        type.width = type.exactWidth ∧
        a.type.offsetOf is + type.exactWidth ≤ a.type.exactWidth ∧
        ∀ js, RowMajor.Within a.type.dims js → js.length = is.length →
          js ≠ is → Disjoint (a.type.range is) (a.type.range js) := by
  obtain ⟨es, hreads, hloc⟩ := offset_reads h
  refine ⟨es, hreads, fun m is hes hin => ?_⟩
  have hfit : a.type.exactWidth < 2 ^ 31 := by
    rwa [Ty.exactWidth_eq]
  obtain ⟨hval, rfl⟩ := locateFirst_eval hI hes hloc hin hfit
  have hend := hin.address_add_le a.type.unit
  rw [← Ty.offsetOf_eq hin, ← Ty.left_exactWidth hin.length_le,
    ← Ty.exactWidth_eq] at hend
  refine ⟨?_, rfl, ?_, hend, fun js hjs hlength hne => ?_⟩
  · rw [hval, Ty.offsetOf_eq hin]
  · rw [Ty.width_eq, wrap_of_lt (by omega)]
  · rw [Ty.range_eq hin, Ty.range_eq hjs]
    exact RowMajor.disjoint_block hin hjs hlength.symm hne.symm

/-- `a[1][2 + 1]`, where `a` is an `int[4][4]`, is at `1 * 16 + 3 * 4`. -/
theorem offset_rowMajor_square :
    let num (n : Nat) : Num := ⟨wrap n, n, rfl⟩
    let a : Id := ⟨⟨['a'], 0⟩, .array (num 4) (.array (num 4) .int), 0, 0⟩
    ∃ loc s', offset 9 a
        ⟨[.chr '[', .num (num 1), .chr ']', .chr '[', .num (num 2), .chr '+',
          .num (num 1), .chr ']', .chr '='], Sem.init⟩ = .ok ((loc, .int), s') ∧
      ∀ m, loc.eval int32Interp m = some 28 ∧
        Disjoint (a.type.range [1, 3]) (a.type.range [3, 1]) := by
  intro num a
  obtain ⟨⟨⟨loc, type⟩, s'⟩, ho, htype⟩ := exists_of_okAnd
    (p := fun r => decide (r.1.2 = Ty.int)) (x := offset 9 a
      ⟨[.chr '[', .num (num 1), .chr ']', .chr '[', .num (num 2), .chr '+',
        .num (num 1), .chr ']', .chr '='], Sem.init⟩) (by decide +kernel)
  cases of_decide_eq_true htype
  refine ⟨loc, s', ho, fun m => ?_⟩
  obtain ⟨es, hreads, hrow⟩ := offset_rowMajor int32Interp_computesInts
    (by decide +kernel) ho
  cases hreads.unique (.more rfl rfl rfl (.last rfl rfl rfl (by decide)))
  obtain ⟨hval, -, -, -, hdisjoint⟩ := hrow m [1, 3]
    (.cons rfl (.cons rfl .nil)) (by decide)
  exact ⟨hval, hdisjoint [3, 1] (by decide) rfl (by decide)⟩

end LearningLinux.FrontEnd
