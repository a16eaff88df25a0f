import LearningLinux.FrontEnd.ArrayAccess
import LearningLinux.FrontEnd.Typing

/-!
# The types of subscripts

No class tests a subscript. What there is to keep it in order is the product
with a width that `offset` makes of it: the constructor of `Arith` wants a
number and no more, so that a `float` passes, and its type passes on to the
sum of the products.
-/

namespace LearningLinux.FrontEnd

open Lib

/-! ## The references of a program -/

/-- The array and the index of every `Access` node. -/
def Expr.references : Expr → List (Id × Expr)
  | .id _ => []
  | .temp _ _ => []
  | .const _ => []
  | .arith _ x y => x.references ++ y.references
  | .unary x => x.references
  | .access a i _ => (a, i) :: i.references
  | .or x y => x.references ++ y.references
  | .and x y => x.references ++ y.references
  | .not x => x.references
  | .rel _ x y => x.references ++ y.references

/-- And of every `SetElem` node. -/
def Stmt.references : Stmt → List (Id × Expr)
  | .set _ x => x.references
  | .setElem a i x => (a, i) :: i.references ++ x.references
  | .if x s => x.references ++ s.references
  | .else x s1 s2 => x.references ++ s1.references ++ s2.references
  | .while _ x s => x.references ++ s.references
  | .do _ s x => s.references ++ x.references
  | .seq s1 s2 => s1.references ++ s2.references
  | _ => []

section

-- Made here, as those of the grammar are.
attribute [local simp] Expr.references

end

/-- The index is what `offset` makes of the subscripts `es`. -/
def BuiltFrom (r : Id × Expr) (es : List Expr) : Prop :=
  ∃ type, locateFirst r.1.type es = .ok (r.2, type)

/-- Every reference has been built from some subscripts. -/
def AllBuilt (rs : List (Id × Expr)) : Prop := ∀ r ∈ rs, ∃ es, BuiltFrom r es

theorem allBuilt_append {rs rs' : List (Id × Expr)} :
    AllBuilt (rs ++ rs') ↔ AllBuilt rs ∧ AllBuilt rs' :=
  List.forall_mem_append

theorem allBuilt_cons {r : Id × Expr} {rs : List (Id × Expr)} :
    AllBuilt (r :: rs) ↔ (∃ es, BuiltFrom r es) ∧ AllBuilt rs :=
  List.forall_mem_cons

theorem allBuilt_nil : AllBuilt [] := nofun

/-! ## How the parser builds them -/

section Building

variable {type type' type'' : Ty} {loc loc' e t1 t2 : Expr} {es : List Expr}

/-- One more subscript at the end. -/
theorem locate_concat (h : locate loc type es = .ok (loc', type'))
    (hscale : scale e type' = .ok (t1, type''))
    (hadd : newArith .add loc' t1 = .ok t2) :
    locate loc type (es ++ [e]) = .ok (t2, type'') := by
  induction es generalizing loc type with
  | nil =>
      cases h
      rw [List.nil_append, locate, hscale]
      show (newArith .add loc' t1 >>= _) = _
      rw [hadd]
      rfl
  | cons d es ih =>
      obtain ⟨⟨u1, of⟩, hd, h₁⟩ := except_bind_ok.mp h
      obtain ⟨u2, hu, h₂⟩ := except_bind_ok.mp h₁
      rw [List.cons_append, locate]
      exact except_bind_ok.mpr ⟨(u1, of), hd,
        except_bind_ok.mpr ⟨u2, hu, ih h₂⟩⟩

theorem locateFirst_concat (h : locateFirst type es = .ok (loc', type'))
    (hscale : scale e type' = .ok (t1, type''))
    (hadd : newArith .add loc' t1 = .ok t2) :
    locateFirst type (es ++ [e]) = .ok (t2, type'') := by
  cases es with
  | nil => cases h
  | cons d es =>
      obtain ⟨⟨u1, of⟩, hd, h₁⟩ := except_bind_ok.mp h
      exact except_bind_ok.mpr ⟨(u1, of), hd, locate_concat h₁ hscale hadd⟩

theorem locateFirst_single (hscale : scale e type = .ok (t1, type')) :
    locateFirst type [e] = .ok (t1, type') :=
  except_bind_ok.mpr ⟨(t1, type'), hscale, rfl⟩

end Building

/-- An `Access` that the actions make is built from subscripts. -/
theorem ETree.perform_built {k : Level} (t : ETree k) {e e' : Sem} {a : Id}
    {i : Expr} {type : Ty} (h : t.perform e = .ok (.access a i type, e')) :
    ∃ es, locateFirst a.type es = .ok (i, type) := by
  refine t.perform_access_ind
    (P := fun a i type => ∃ es, locateFirst a.type es = .ok (i, type)) ?_ ?_ h
  · intro a j t1 type hscale
    exact ⟨[j], locateFirst_single hscale⟩
  · intro a loc j t1 t2 type type' hes hscale hadd
    obtain ⟨es, hes⟩ := hes
    exact ⟨es ++ [j], locateFirst_concat hes hscale hadd⟩

theorem newBin_references {op : BinOp} {x y z : Expr}
    (h : newBin op x y = .ok z) :
    z.references = x.references ++ y.references := by
  cases op with
  | or => rw [(typed_ok.mp h).1, Expr.references]
  | and => rw [(typed_ok.mp h).1, Expr.references]
  | rel op => rw [(typed_ok.mp h).1, Expr.references]
  | arith op => rw [(typed_ok.mp h).1, Expr.references]

theorem scale_references {i t1 : Expr} {p q : Ty}
    (h : scale i p = .ok (t1, q)) : t1.references = i.references := by
  obtain ⟨size, -, hn⟩ := scale_ok.mp h
  rw [(typed_ok.mp hn).1, Expr.references, Expr.references, List.append_nil]

theorem ETree.perform_references {k : Level} (t : ETree k) :
    ∀ {e e' : Sem} {x : Expr}, t.perform e = .ok (x, e') →
      AllBuilt x.references := by
  induction t with
  | binary x tok op h y ihx ihy =>
      intro e e' z hz
      obtain ⟨x', y', e₁, hx, hy, hnew⟩ := perform_binary.mp hz
      rw [newBin_references hnew]
      exact allBuilt_append.mpr ⟨ihx hx, ihy hy⟩
  | operand l x ih => intro e e' z hz; exact ih hz
  | relation x tok op h y ihx ihy =>
      intro e e' z hz
      obtain ⟨x', y', e₁, hx, hy, hnew⟩ := perform_relation.mp hz
      rw [(typed_ok.mp hnew).1]
      exact allBuilt_append.mpr ⟨ihx hx, ihy hy⟩
  | plain x ih => intro e e' z hz; exact ih hz
  | minus x ih =>
      intro e e' z hz
      obtain ⟨x', hx, hnew⟩ := perform_minus.mp hz
      rw [(typed_ok.mp hnew).1, Expr.references]
      exact ih hx
  | bang x ih =>
      intro e e' z hz
      obtain ⟨x', hx, hnew⟩ := perform_bang.mp hz
      rw [(typed_ok.mp hnew).1, Expr.references]
      exact ih hx
  | single x ih => intro e e' z hz; exact ih hz
  | paren x ih => intro e e' z hz; exact ih hz
  | num n => intro e e' z hz; cases hz; exact allBuilt_nil
  | real r => intro e e' z hz; cases hz; exact allBuilt_nil
  | true => intro e e' z hz; cases hz; exact allBuilt_nil
  | false => intro e e' z hz; cases hz; exact allBuilt_nil
  | var w =>
      intro e e' z hz
      obtain ⟨id, -, rfl⟩ := perform_var.mp hz
      exact allBuilt_nil
  | elem x ih => intro e e' z hz; exact ih hz
  | first w j ihj =>
      intro e e' z hz
      obtain ⟨id, e₁, j', t1, type, -, hj, hscale, rfl⟩ :=
        perform_first.mp hz
      obtain ⟨es, hes⟩ := (ETree.first w j).perform_built hz
      have hrest := ihj hj
      rw [← scale_references hscale] at hrest
      exact allBuilt_cons.mpr ⟨⟨es, type, hes⟩, hrest⟩
  | more x j ihx ihj =>
      intro e e' z hz
      obtain ⟨id, loc, type, e₁, j', t1, type', t2, hx, hj, hscale, hadd,
        rfl⟩ := perform_more.mp hz
      obtain ⟨es, hes⟩ := (ETree.more x j).perform_built hz
      have hrefs : t2.references = loc.references ++ j'.references := by
        rw [(typed_ok.mp hadd).1, Expr.references, scale_references hscale]
      have hrest : AllBuilt t2.references := by
        rw [hrefs]
        exact allBuilt_append.mpr ⟨(allBuilt_cons.mp (ihx hx)).2, ihj hj⟩
      exact allBuilt_cons.mpr ⟨⟨es, type', hes⟩, hrest⟩

theorem STree.perform_references {k : SKind} (t : STree k) :
    ∀ {e e' : Sem} {s : Stmt}, t.perform e = .ok (s, e') →
      AllBuilt s.references := by
  induction t with
  | empty => intro e e' s h; cases h; exact allBuilt_nil
  | ifThen c b ih =>
      intro e e' s h
      obtain ⟨x, e₁, y, hx, hy, -, rfl⟩ := perform_ifThen.mp h
      exact allBuilt_append.mpr ⟨c.perform_references hx, ih hy⟩
  | ifElse c b1 b2 ih1 ih2 =>
      intro e e' s h
      obtain ⟨x, e₁, y, e₂, z, hx, hy, hz, -, rfl⟩ := perform_ifElse.mp h
      exact allBuilt_append.mpr ⟨allBuilt_append.mpr
        ⟨c.perform_references hx, ih1 hy⟩, ih2 hz⟩
  | whileDo c b ih =>
      intro e e' s h
      obtain ⟨x, e₁, y, e₂, hx, hy, -, rfl, -⟩ := perform_whileDo.mp h
      exact allBuilt_append.mpr ⟨c.perform_references hx, ih hy⟩
  | doWhile b c ih =>
      intro e e' s h
      obtain ⟨y, e₁, x, e₂, hy, hx, -, rfl, -⟩ := perform_doWhile.mp h
      exact allBuilt_append.mpr ⟨ih hy, c.perform_references hx⟩
  | «break» =>
      intro e e' s h
      obtain ⟨l, -, rfl, -⟩ := makeBreak_ok.mp h
      exact allBuilt_nil
  | «continue» =>
      intro e e' s h
      obtain ⟨l, -, rfl, -⟩ := makeContinue_ok.mp h
      exact allBuilt_nil
  | block b ih =>
      intro e e' s h
      obtain ⟨e₁, hs, -⟩ := perform_block.mp h
      exact ih hs
  | assign w x =>
      intro e e' s h
      obtain ⟨id, e₁, y, -, hy, -, rfl⟩ := perform_assign.mp h
      exact x.perform_references hy
  | assignElem loc x =>
      intro e e' s h
      obtain ⟨id, i, type, e₁, y, hloc, hy, -, rfl⟩ :=
        perform_assignElem.mp h
      exact allBuilt_append.mpr
        ⟨loc.perform_references hloc, x.perform_references hy⟩
  | done ds =>
      intro e e' s h
      obtain ⟨-, rfl⟩ := perform_done.mp h
      exact allBuilt_nil
  | cons ds b rest ihb ihr =>
      intro e e' s h
      obtain ⟨e₁, y, e₂, z, -, hy, hz, rfl⟩ := perform_cons.mp h
      exact allBuilt_append.mpr ⟨ihb hy, ihr hz⟩

/-! ## Their types -/

/-- The type of the index made of the subscripts `es`. -/
def indexType (es : List Expr) : Ty :=
  if ∃ e ∈ es, e.type = some .float then .float else .int

theorem numeric_cases {p : Option Ty} : Ty.numeric p = true ↔
    p = some .char ∨ p = some .int ∨ p = some .float := by
  match p with
  | none => decide
  | some (.basic b) => cases b <;> decide
  | some (.array n of) => simp [Ty.numeric]

theorem indexType_append (es fs : List Expr) :
    Ty.max (some (indexType es)) (some (indexType fs)) =
      some (indexType (es ++ fs)) := by
  have hmem : (∃ e ∈ es ++ fs, e.type = some .float) ↔
      (∃ e ∈ es, e.type = some .float) ∨ ∃ e ∈ fs, e.type = some .float := by
    simp only [List.mem_append, or_and_right, exists_or]
  rw [indexType, indexType, indexType]
  by_cases hes : ∃ e ∈ es, e.type = some .float
  · rw [if_pos hes, if_pos (hmem.mpr (.inl hes))]
    split <;> rfl
  · by_cases hfs : ∃ e ∈ fs, e.type = some .float
    · rw [if_neg hes, if_pos hfs, if_pos (hmem.mpr (.inr hfs))]
      rfl
    · have hnone := fun h => (hmem.mp h).elim hes hfs
      rw [if_neg hes, if_neg hfs, if_neg hnone]
      rfl

section Types

variable {type type' : Ty} {loc i e t1 : Expr} {ds es : List Expr}

/-- A product with a width: what it asks of the subscript, and its type. -/
theorem scale_type (h : scale e type = .ok (t1, type')) :
    Ty.numeric e.type = true ∧ t1.type = some (indexType [e]) := by
  obtain ⟨size, -, hmul⟩ := scale_ok.mp h
  obtain ⟨rfl, htype⟩ := typed_ok.mp hmul
  have hnum := (Ty.max_ne_none.mp htype).1
  refine ⟨hnum, ?_⟩
  have hfloat : (∃ d ∈ [e], d.type = some .float) ↔ e.type = some .float := by
    simp
  rw [indexType, if_congr hfloat rfl rfl]
  show Ty.max e.type (some .int) = _
  rcases numeric_cases.mp hnum with he | he | he <;> rw [he] <;> rfl

theorem locate_type (hloc : loc.type = some (indexType ds))
    (h : locate loc type es = .ok (i, type')) :
    (∀ e ∈ es, Ty.numeric e.type = true) ∧
      i.type = some (indexType (ds ++ es)) := by
  induction es generalizing loc type ds with
  | nil =>
      cases h
      exact ⟨nofun, by rw [List.append_nil, hloc]⟩
  | cons e es ih =>
      obtain ⟨⟨t1, of⟩, hscale, h₁⟩ := except_bind_ok.mp h
      obtain ⟨t2, hadd, h₂⟩ := except_bind_ok.mp h₁
      obtain ⟨hnum, ht1⟩ := scale_type hscale
      have ht2 : t2.type = some (indexType (ds ++ [e])) := by
        rw [(typed_ok.mp hadd).1, Expr.type, hloc, ht1, indexType_append]
      obtain ⟨hrest, hi⟩ := ih ht2 h₂
      rw [List.append_assoc, List.singleton_append] at hi
      exact ⟨List.forall_mem_cons.mpr ⟨hnum, hrest⟩, hi⟩

theorem locateFirst_type (h : locateFirst type es = .ok (i, type')) :
    (∀ e ∈ es, Ty.numeric e.type = true) ∧ i.type = some (indexType es) := by
  cases es with
  | nil => cases h
  | cons e es =>
      obtain ⟨⟨t1, of⟩, hscale, h₁⟩ := except_bind_ok.mp h
      obtain ⟨hnum, ht1⟩ := scale_type hscale
      obtain ⟨hrest, hi⟩ := locate_type ht1 h₁
      exact ⟨List.forall_mem_cons.mpr ⟨hnum, hrest⟩, hi⟩

end Types

/-- In an accepted program every index is built from subscripts, each of them
a number, and it is an `int` unless one of these is a `float`. -/
theorem program_subscripts {toks : List Token} {o : Output}
    (h : program toks = .ok o) :
    ∀ r ∈ o.stmt.references, (∃ es, BuiltFrom r es) ∧
      ∀ es, BuiltFrom r es →
        (∀ e ∈ es, e.type = some .char ∨ e.type = some .int ∨
          e.type = some .float) ∧
        r.2.type = some (indexType es) := by
  obtain ⟨b, rest, sem, -, hp, -, -⟩ := program_sound h
  intro r hr
  refine ⟨(STree.block b).perform_references hp r hr, fun es hes => ?_⟩
  obtain ⟨type, hes⟩ := hes
  obtain ⟨hnum, htype⟩ := locateFirst_type hes
  exact ⟨fun e he => numeric_cases.mp (hnum e he), htype⟩

theorem program_subscripts_char : ∃ o : Output,
    main "\x7b int[2][3] a; char c; float f; a[c][1] = 2; f = a[0][c]; \x7d" =
      .ok o ∧ o.stmt.references ≠ [] ∧
    ∀ r ∈ o.stmt.references, (∃ es, BuiltFrom r es) ∧
      ∀ es, BuiltFrom r es →
        (∀ e ∈ es, e.type = some .char ∨ e.type = some .int ∨
          e.type = some .float) ∧
        r.2.type = some (indexType es) := by
  obtain ⟨o, ho, hrefs⟩ := exists_of_okAnd
    (p := fun o : Output => decide (o.stmt.references ≠ []))
    (x := main
      "\x7b int[2][3] a; char c; float f; a[c][1] = 2; f = a[0][c]; \x7d")
    (by decide +kernel)
  exact ⟨o, ho, of_decide_eq_true hrefs, program_subscripts ho⟩

/-- The subscript of the only reference is a `float`, and so is the index. -/
theorem float_subscript : ∃ o : Output,
    main "\x7b int[4] a; a[1.5] = 2; \x7d" = .ok o ∧
      ∃ r ∈ o.stmt.references, r.2.type = some .float ∧
        ∃ e, BuiltFrom r [e] ∧ e.type = some .float := by
  obtain ⟨o, ho, hrefs⟩ := exists_of_okAnd
    (p := fun o : Output => o.stmt.references.any fun r =>
      decide (r.2.type = some .float) && okAnd (fun q => decide (q.1 = r.2))
        (locateFirst r.1.type [.const (.real ⟨1, [5]⟩)]))
    (x := main "\x7b int[4] a; a[1.5] = 2; \x7d") (by decide +kernel)
  obtain ⟨r, hr, hcheck⟩ := List.any_eq_true.mp hrefs
  obtain ⟨htype, hbuilt⟩ := Bool.and_eq_true_iff.mp hcheck
  obtain ⟨⟨i, type⟩, hloc, hi⟩ := exists_of_okAnd hbuilt
  cases of_decide_eq_true hi
  exact ⟨o, ho, r, hr, of_decide_eq_true htype, _, ⟨type, hloc⟩, rfl⟩

end LearningLinux.FrontEnd
