import LearningLinux.FrontEnd.Accepted

/-!
# The static rules of the language

When a parse tree is a correct program: names are declared where they are
used and once in a block, `break` and `continue` are inside loops, and the
operands of everything have the types it asks for. The rules are stated over
the trees and the types of the names in scope, without `Id`s, nodes or
errors.

The semantic actions check these rules: they succeed on exactly the trees
that follow them (`STree.perform_iff`).
-/

namespace LearningLinux.FrontEnd

open Lib

/-! ## Names in scope -/

/-- The names of the open blocks with their types, the innermost block
first. Names are `Word` objects, known by their `ref`. -/
def Ctx : Type := List (List (Nat × Ty))

def Ctx.lookup : Ctx → Word → Option Ty
  | [], _ => none
  | names :: outer, w => (List.lookup w.ref names).or (Ctx.lookup outer w)

/-- A declaration: the block must not have the name yet. -/
def Ctx.declare (w : Word) (p : Ty) : Ctx → Option Ctx
  | [] => none
  | names :: outer =>
      if List.lookup w.ref names = none then
        some (((w.ref, p) :: names) :: outer)
      else none

def Ctx.declareAll (p : Ty) : List Word → Ctx → Option Ctx
  | [], Γ => some Γ
  | w :: ws, Γ => (Γ.declare w p).bind (Ctx.declareAll p ws)

def Decl.words (d : Decl) : List Word := d.first :: d.more.map Prod.snd

def Ctx.decls : List Decl → Ctx → Option Ctx
  | [], Γ => some Γ
  | d :: ds, Γ => (Γ.declareAll d.type d.words).bind (Ctx.decls ds)

/-! ## Types -/

inductive Numeric : Ty → Prop where
  | char : Numeric .char
  | int : Numeric .int
  | float : Numeric .float

/-- The type of an operation on numbers. -/
def Ty.wider (p q : Ty) : Ty :=
  if p = .float ∨ q = .float then .float
  else if p = .int ∨ q = .int then .int
  else .char

inductive BinRule : BinOp → Ty → Ty → Ty → Prop where
  | or : BinRule .or .bool .bool .bool
  | and : BinRule .and .bool .bool .bool
  | arith {op : ArithOp} {p q : Ty} (hp : Numeric p) (hq : Numeric q) :
      BinRule (.arith op) p q (p.wider q)
  /-- Numbers may be compared, whatever their types. -/
  | numbers {op : RelOp} {p q : Ty} (hp : Numeric p) (hq : Numeric q) :
      BinRule (.rel op) p q .bool
  | same {op : RelOp} {b : Basic} :
      BinRule (.rel op) (.basic b) (.basic b) .bool

/-- What may be assigned to a variable. -/
inductive SetRule : Ty → Ty → Prop where
  | numbers {p q : Ty} (hp : Numeric p) (hq : Numeric q) : SetRule p q
  | bools : SetRule .bool .bool

def ETree.HasType (Γ : Ctx) {k : Level} : ETree k → Ty → Prop
  | .binary x _ op _ y, r =>
      ∃ p q, x.HasType Γ p ∧ y.HasType Γ q ∧ BinRule op p q r
  | .operand _ x, r => x.HasType Γ r
  | .relation x _ op _ y, r =>
      ∃ p q, x.HasType Γ p ∧ y.HasType Γ q ∧ BinRule (.rel op) p q r
  | .plain x, r => x.HasType Γ r
  | .minus x, r => ∃ p, x.HasType Γ p ∧ Numeric p ∧ r = Ty.int.wider p
  | .bang x, r => x.HasType Γ .bool ∧ r = .bool
  | .single x, r => x.HasType Γ r
  | .paren x, r => x.HasType Γ r
  | .num _, r => r = .int
  | .real _, r => r = .float
  | .true, r => r = .bool
  | .false, r => r = .bool
  | .var w, r => Γ.lookup w = some r
  | .elem x, r => x.HasType Γ r
  | .first w i, r => ∃ size p, Γ.lookup w = some (.array size r) ∧
      i.HasType Γ p ∧ Numeric p
  | .more x i, r => ∃ size p, x.HasType Γ (.array size r) ∧
      i.HasType Γ p ∧ Numeric p

/-! ## Statements -/

/-- The rules for a statement, or a sequence of declarations and statements,
`inLoop` or not. -/
def STree.Checks {k : SKind} : STree k → Ctx → Bool → Prop
  | .empty, _, _ => True
  | .ifThen c s, Γ, inLoop => c.HasType Γ .bool ∧ s.Checks Γ inLoop
  | .ifElse c s1 s2, Γ, inLoop =>
      c.HasType Γ .bool ∧ s1.Checks Γ inLoop ∧ s2.Checks Γ inLoop
  | .whileDo c s, Γ, _ => c.HasType Γ .bool ∧ s.Checks Γ true
  | .doWhile s c, Γ, _ => s.Checks Γ true ∧ c.HasType Γ .bool
  | .break, _, inLoop => inLoop = true
  | .continue, _, inLoop => inLoop = true
  | .block b, Γ, inLoop => b.Checks ([] :: Γ) inLoop
  | .assign w x, Γ, _ =>
      ∃ p q, Γ.lookup w = some p ∧ x.HasType Γ q ∧ SetRule p q
  | .assignElem loc x, Γ, _ =>
      ∃ p q, loc.HasType Γ p ∧ x.HasType Γ q ∧ SetRule p q
  | .done ds, Γ, _ => ∃ Γ', Γ.decls ds = some Γ'
  | .cons ds s rest, Γ, inLoop => ∃ Γ', Γ.decls ds = some Γ' ∧
      s.Checks Γ' inLoop ∧ rest.Checks Γ' inLoop

/-! ## What the constructors check -/

theorem numeric_iff {p : Ty} : Ty.numeric (some p) = true ↔ Numeric p := by
  constructor
  · intro h
    match p with
    | .basic .char => exact .char
    | .basic .int => exact .int
    | .basic .float => exact .float
    | .basic .bool => cases h
    | .array _ _ => cases h
  · intro h
    cases h <;> rfl

theorem max_iff {p q r : Ty} : Ty.max (some p) (some q) = some r ↔
    Numeric p ∧ Numeric q ∧ r = p.wider q := by
  rw [Ty.max]
  by_cases hnum : Numeric p ∧ Numeric q
  · have hp := numeric_iff.mpr hnum.1
    have hq := numeric_iff.mpr hnum.2
    rw [if_neg (by simp [hp, hq]), Ty.wider]
    simp only [Option.some.injEq, hnum.1, hnum.2, true_and]
    split
    · exact ⟨fun h => (Option.some.inj h).symm, fun h => congrArg _ h.symm⟩
    · split
      · exact ⟨fun h => (Option.some.inj h).symm, fun h => congrArg _ h.symm⟩
      · exact ⟨fun h => (Option.some.inj h).symm, fun h => congrArg _ h.symm⟩
  · rw [if_pos (by rw [numeric_iff, numeric_iff]; exact not_and_or.mp hnum)]
    exact ⟨by simp, fun h => absurd ⟨h.1, h.2.1⟩ hnum⟩

/-- A type that is not an array is a basic one. -/
theorem basic_of_not_array {p : Ty} (h : ¬ isArray (some p) = true) :
    ∃ b, p = .basic b := by
  cases p with
  | basic b => exact ⟨b, rfl⟩
  | array size of => exact absurd rfl h

theorem Numeric.not_array {p : Ty} (h : Numeric p) :
    ¬ isArray (some p) = true := by
  cases h <;> nofun

theorem relCheck_iff {op : RelOp} {p q r : Ty} :
    relCheck (some p) (some q) = some r ↔ BinRule (.rel op) p q r := by
  rw [relCheck]
  constructor
  · intro h
    split at h
    · cases h
    · next harr =>
        obtain ⟨hp, hq⟩ := not_or.mp harr
        split at h
        · next hnum =>
            cases h
            exact .numbers (numeric_iff.mp hnum.1) (numeric_iff.mp hnum.2)
        · split at h
          · next heq =>
              cases h
              cases heq
              obtain ⟨b, rfl⟩ := basic_of_not_array hp
              exact .same
          · cases h
  · intro h
    cases h with
    | numbers hp hq =>
        rw [if_neg (not_or.mpr ⟨hp.not_array, hq.not_array⟩),
          if_pos ⟨numeric_iff.mpr hp, numeric_iff.mpr hq⟩]
    | same =>
        rw [if_neg (by simp [isArray, Ty.isArray])]
        split <;> simp

theorem setCheck_iff {p q : Ty} :
    setCheck (some p) (some q) ≠ none ↔ SetRule p q := by
  rw [setCheck]
  constructor
  · intro h
    split at h
    · next hnum =>
        exact .numbers (numeric_iff.mp hnum.1) (numeric_iff.mp hnum.2)
    · split at h
      · next hbool =>
          obtain ⟨hp, hq⟩ := hbool
          cases hp
          cases hq
          exact .bools
      · exact absurd rfl h
  · intro h
    cases h with
    | numbers hp hq =>
        rw [if_pos ⟨numeric_iff.mpr hp, numeric_iff.mpr hq⟩]
        nofun
    | bools => decide

theorem setElemCheck_iff {p q : Ty} :
    setElemCheck (some p) (some q) ≠ none ↔ SetRule p q := by
  rw [setElemCheck]
  constructor
  · intro h
    split at h
    · exact absurd rfl h
    · next harr =>
        obtain ⟨hp, hq⟩ := not_or.mp harr
        split at h
        · next heq =>
            cases heq
            obtain ⟨b, rfl⟩ := basic_of_not_array hp
            cases b with
            | int => exact .numbers .int .int
            | float => exact .numbers .float .float
            | char => exact .numbers .char .char
            | bool => exact .bools
        · split at h
          · next hnum =>
              exact .numbers (numeric_iff.mp hnum.1) (numeric_iff.mp hnum.2)
          · exact absurd rfl h
  · intro h
    cases h with
    | numbers hp hq =>
        rw [if_neg (not_or.mpr ⟨hp.not_array, hq.not_array⟩)]
        split
        · simp
        · rw [if_pos ⟨numeric_iff.mpr hp, numeric_iff.mpr hq⟩]
          simp
    | bools => decide

theorem logicalCheck_iff {p q r : Ty} :
    logicalCheck (some p) (some q) = some r ↔
      p = .bool ∧ q = .bool ∧ r = .bool := by
  rw [logicalCheck]
  split
  · next h =>
      obtain ⟨hp, hq⟩ := h
      cases hp
      cases hq
      exact ⟨fun h => ⟨rfl, rfl, (Option.some.inj h).symm⟩,
        fun h => congrArg _ h.2.2.symm⟩
  · next h =>
      refine ⟨by simp, ?_⟩
      rintro ⟨hp, hq, -⟩
      refine absurd ⟨?_, ?_⟩ h
      · rw [hp]
      · rw [hq]

theorem typed_iff {x : Expr} {r : Ty} :
    (∃ z, typed x = .ok z ∧ z.type = some r) ↔ x.type = some r := by
  constructor
  · intro ⟨z, hz, hr⟩
    obtain ⟨rfl, -⟩ := typed_ok.mp hz
    exact hr
  · intro hr
    exact ⟨x, typed_ok.mpr ⟨rfl, by rw [hr]; nofun⟩, hr⟩

theorem typed_some {x z : Expr} (h : typed x = .ok z) :
    ∃ r, z.type = some r := by
  obtain ⟨rfl, hne⟩ := typed_ok.mp h
  exact Option.ne_none_iff_exists'.mp hne

theorem newBin_some {op : BinOp} {x y z : Expr} (h : newBin op x y = .ok z) :
    ∃ r, z.type = some r := by
  cases op <;> exact typed_some h

/-- A constructor succeeds where there is a rule for its operands. -/
theorem newBin_iff {op : BinOp} {x y : Expr} {p q r : Ty}
    (hx : x.type = some p) (hy : y.type = some q) :
    (∃ z, newBin op x y = .ok z ∧ z.type = some r) ↔ BinRule op p q r := by
  cases op with
  | or =>
      refine typed_iff.trans ?_
      rw [Expr.type, hx, hy, logicalCheck_iff]
      constructor
      · rintro ⟨rfl, rfl, rfl⟩
        exact .or
      · rintro ⟨⟩
        exact ⟨rfl, rfl, rfl⟩
  | and =>
      refine typed_iff.trans ?_
      rw [Expr.type, hx, hy, logicalCheck_iff]
      constructor
      · rintro ⟨rfl, rfl, rfl⟩
        exact .and
      · rintro ⟨⟩
        exact ⟨rfl, rfl, rfl⟩
  | rel op =>
      refine typed_iff.trans ?_
      rw [Expr.type, hx, hy]
      exact relCheck_iff
  | arith op =>
      refine typed_iff.trans ?_
      rw [Expr.type, hx, hy, max_iff]
      constructor
      · rintro ⟨hp, hq, rfl⟩
        exact .arith hp hq
      · intro h
        cases h with
        | arith hp hq => exact ⟨hp, hq, rfl⟩

theorem scale_iff {i : Expr} {p type type' : Ty} (hi : i.type = some p) :
    (∃ t1, scale i type = .ok (t1, type')) ↔
      (∃ size, type = .array size type') ∧ Numeric p := by
  have hwidth : (Expr.const (.num type'.width)).type = some .int := rfl
  constructor
  · intro ⟨t1, h⟩
    obtain ⟨size, harray, hn⟩ := scale_ok.mp h
    obtain ⟨r, hr⟩ := typed_some hn
    have hrule := (@newBin_iff (.arith .mul) _ _ _ _ r hi hwidth).mp
      ⟨t1, hn, hr⟩
    cases hrule with
    | arith hp _ => exact ⟨⟨size, harray⟩, hp⟩
  · intro ⟨⟨size, harray⟩, hp⟩
    obtain ⟨t1, hn, -⟩ := (newBin_iff hi hwidth).mpr
      (@BinRule.arith .mul _ _ hp .int)
    exact ⟨t1, scale_ok.mpr ⟨size, harray, hn⟩⟩

/-! ## Expressions -/

/-- The types of the names in scope. -/
def Env.ctx (env : Env) : Ctx :=
  List.map (fun t => List.map (fun q => (q.1, q.2.type)) t) env

theorem lookup_map_type (t : List (Nat × Id)) (r : Nat) :
    List.lookup r (t.map fun q => (q.1, q.2.type)) =
      (List.lookup r t).map Id.type := by
  induction t with
  | nil => rfl
  | cons q t ih =>
      obtain ⟨r', i⟩ := q
      rw [List.map_cons, List.lookup_cons, List.lookup_cons]
      cases r == r' with
      | true => rfl
      | false => exact ih

theorem Env.lookup_ctx (env : Env) (w : Word) :
    env.ctx.lookup w = (env.get w).map Id.type := by
  induction env with
  | nil => rfl
  | cons t prev ih =>
      have hhead : List.lookup w.ref (List.map (fun q => (q.1, q.2.type)) t) =
          (t.get w).map Id.type := lookup_map_type t w.ref
      show (List.lookup w.ref _).or (Ctx.lookup (Env.ctx prev) w) = _
      rw [hhead, ih, Env.get]
      cases t.get w <;> rfl

theorem resolves_of_lookup {e : Sem} {w : Word} {p : Ty}
    (h : e.top.ctx.lookup w = some p) : ∃ id,
      resolve w e = .ok (id, { e with log := .use w id :: e.log }) ∧
        id.type = p := by
  rw [Env.lookup_ctx] at h
  obtain ⟨id, hid, rfl⟩ := Option.map_eq_some_iff.mp h
  exact ⟨id, resolve_ok.mpr ⟨hid, rfl⟩, rfl⟩

/-- The index of an `Access` is a number. -/
theorem ETree.perform_loc (t : ETree .loc) {e e' : Sem} {x : Expr}
    (h : t.perform e = .ok (x, e')) : ∃ id i type, x = .access id i type ∧
      Ty.numeric i.type = .true := by
  obtain ⟨id, i, type, rfl⟩ := t.perform_access h
  exact ⟨id, i, type, rfl, (t.perform_wellTyped h).1.2⟩

theorem ETree.hasType_of_perform {k : Level} (t : ETree k) :
    ∀ {e e' : Sem} {x : Expr}, t.perform e = .ok (x, e') →
      ∃ p, x.type = some p ∧ t.HasType e.top.ctx p := by
  induction t with
  | binary x tok op h y ihx ihy =>
      intro e e' z hz
      obtain ⟨x', y', e₁, hx, hy, hnew⟩ := perform_binary.mp hz
      obtain ⟨p, hp, hxp⟩ := ihx hx
      obtain ⟨q, hq, hyq⟩ := ihy hy
      rw [(x.perform_wellTyped hx).2.top] at hyq
      obtain ⟨r, hr⟩ := newBin_some hnew
      exact ⟨r, hr, p, q, hxp, hyq, (newBin_iff hp hq).mp ⟨z, hnew, hr⟩⟩
  | operand l x ih => intro e e' z hz; exact ih hz
  | relation x tok op h y ihx ihy =>
      intro e e' z hz
      obtain ⟨x', y', e₁, hx, hy, hnew⟩ := perform_relation.mp hz
      obtain ⟨p, hp, hxp⟩ := ihx hx
      obtain ⟨q, hq, hyq⟩ := ihy hy
      rw [(x.perform_wellTyped hx).2.top] at hyq
      obtain ⟨r, hr⟩ := typed_some hnew
      exact ⟨r, hr, p, q, hxp, hyq, (newBin_iff hp hq).mp ⟨z, hnew, hr⟩⟩
  | plain x ih => intro e e' z hz; exact ih hz
  | minus x ih =>
      intro e e' z hz
      obtain ⟨x', hx, hnew⟩ := perform_minus.mp hz
      obtain ⟨p, hp, hxp⟩ := ih hx
      obtain ⟨r, hr⟩ := typed_some hnew
      have hmax := typed_iff.mp ⟨z, hnew, hr⟩
      rw [Expr.type, hp] at hmax
      obtain ⟨-, hnum, rfl⟩ := max_iff.mp hmax
      exact ⟨_, hr, p, hxp, hnum, rfl⟩
  | bang x ih =>
      intro e e' z hz
      obtain ⟨x', hx, hnew⟩ := perform_bang.mp hz
      obtain ⟨p, hp, hxp⟩ := ih hx
      obtain ⟨r, hr⟩ := typed_some hnew
      have hbool := typed_iff.mp ⟨z, hnew, hr⟩
      rw [Expr.type, hp] at hbool
      obtain ⟨rfl, -, rfl⟩ := logicalCheck_iff.mp hbool
      exact ⟨_, hr, hxp, rfl⟩
  | single x ih => intro e e' z hz; exact ih hz
  | paren x ih => intro e e' z hz; exact ih hz
  | num n => intro e e' z hz; cases hz; exact ⟨_, rfl, rfl⟩
  | real r => intro e e' z hz; cases hz; exact ⟨_, rfl, rfl⟩
  | true => intro e e' z hz; cases hz; exact ⟨_, rfl, rfl⟩
  | false => intro e e' z hz; cases hz; exact ⟨_, rfl, rfl⟩
  | var w =>
      intro e e' z hz
      obtain ⟨id, hres, rfl⟩ := perform_var.mp hz
      refine ⟨id.type, rfl, ?_⟩
      rw [ETree.HasType, Env.lookup_ctx, (resolve_ok.mp hres).1]
      rfl
  | elem x ih => intro e e' z hz; exact ih hz
  | first w i ih =>
      intro e e' z hz
      obtain ⟨id, e₁, i', t1, type, hres, hi, hscale, rfl⟩ :=
        perform_first.mp hz
      obtain ⟨p, hp, hip⟩ := ih hi
      rw [(resolve_scope hres).top] at hip
      obtain ⟨⟨size, harray⟩, hnum⟩ := (scale_iff hp).mp ⟨t1, hscale⟩
      refine ⟨type, rfl, size, p, ?_, hip, hnum⟩
      rw [Env.lookup_ctx, (resolve_ok.mp hres).1, Option.map_some, harray]
  | more x i ihx ihi =>
      intro e e' z hz
      obtain ⟨id, loc, type, e₁, i', t1, type', t2, hx, hi, hscale, -, rfl⟩ :=
        perform_more.mp hz
      obtain ⟨q, hq, hxq⟩ := ihx hx
      cases hq
      obtain ⟨p, hp, hip⟩ := ihi hi
      rw [(x.perform_wellTyped hx).2.top] at hip
      obtain ⟨⟨size, rfl⟩, hnum⟩ := (scale_iff hp).mp ⟨t1, hscale⟩
      exact ⟨type', rfl, size, p, hxq, hip, hnum⟩

theorem ETree.hasType_of_type {k : Level} {t : ETree k} {e e' : Sem}
    {x : Expr} {p : Ty} (h : t.perform e = .ok (x, e'))
    (hp : x.type = some p) : t.HasType e.top.ctx p := by
  obtain ⟨q, hq, ht⟩ := t.hasType_of_perform h
  rw [hp] at hq
  cases hq
  exact ht

theorem ETree.perform_of_hasType {k : Level} (t : ETree k) :
    ∀ {e : Sem} {p : Ty}, t.HasType e.top.ctx p →
      ∃ x e', t.perform e = .ok (x, e') ∧ x.type = some p := by
  induction t with
  | binary x tok op h y ihx ihy =>
      intro e r ⟨p, q, hxp, hyq, hrule⟩
      obtain ⟨x', e₁, hx, hp⟩ := ihx hxp
      rw [← (x.perform_wellTyped hx).2.top] at hyq
      obtain ⟨y', e₂, hy, hq⟩ := ihy hyq
      obtain ⟨z, hnew, hr⟩ := (newBin_iff hp hq).mpr hrule
      exact ⟨z, e₂, perform_binary.mpr ⟨x', y', e₁, hx, hy, hnew⟩, hr⟩
  | operand l x ih => intro e r h; exact ih h
  | relation x tok op h y ihx ihy =>
      intro e r ⟨p, q, hxp, hyq, hrule⟩
      obtain ⟨x', e₁, hx, hp⟩ := ihx hxp
      rw [← (x.perform_wellTyped hx).2.top] at hyq
      obtain ⟨y', e₂, hy, hq⟩ := ihy hyq
      obtain ⟨z, hnew, hr⟩ := (newBin_iff hp hq).mpr hrule
      exact ⟨z, e₂, perform_relation.mpr ⟨x', y', e₁, hx, hy, hnew⟩, hr⟩
  | plain x ih => intro e r h; exact ih h
  | minus x ih =>
      rintro e _ ⟨p, hxp, hnum, rfl⟩
      obtain ⟨x', e₁, hx, hp⟩ := ih hxp
      have hmax : (Expr.unary x').type = some (Ty.int.wider p) := by
        rw [Expr.type, hp]
        exact max_iff.mpr ⟨.int, hnum, rfl⟩
      obtain ⟨z, hnew, hr⟩ := typed_iff.mpr hmax
      exact ⟨z, e₁, perform_minus.mpr ⟨x', hx, hnew⟩, hr⟩
  | bang x ih =>
      rintro e _ ⟨hxp, rfl⟩
      obtain ⟨x', e₁, hx, hp⟩ := ih hxp
      have hbool : (Expr.not x').type = some .bool := by
        rw [Expr.type, hp]
        rfl
      obtain ⟨z, hnew, hr⟩ := typed_iff.mpr hbool
      exact ⟨z, e₁, perform_bang.mpr ⟨x', hx, hnew⟩, hr⟩
  | single x ih => intro e r h; exact ih h
  | paren x ih => intro e r h; exact ih h
  | num n => rintro e _ rfl; exact ⟨_, e, rfl, rfl⟩
  | real r => rintro e _ rfl; exact ⟨_, e, rfl, rfl⟩
  | true => rintro e _ rfl; exact ⟨_, e, rfl, rfl⟩
  | false => rintro e _ rfl; exact ⟨_, e, rfl, rfl⟩
  | var w =>
      intro e r h
      obtain ⟨id, hid, rfl⟩ := resolves_of_lookup h
      exact ⟨_, _, perform_var.mpr ⟨id, hid, rfl⟩, rfl⟩
  | elem x ih => intro e r h; exact ih h
  | first w i ih =>
      intro e r ⟨size, p, hw, hip, hnum⟩
      obtain ⟨id, hid, harray⟩ := resolves_of_lookup hw
      rw [← (resolve_scope hid).top] at hip
      obtain ⟨i', e₁, hi, hp⟩ := ih hip
      obtain ⟨t1, hscale⟩ := (scale_iff hp).mpr ⟨⟨size, harray⟩, hnum⟩
      exact ⟨_, e₁, perform_first.mpr
        ⟨id, _, i', t1, r, hid, hi, hscale, rfl⟩, rfl⟩
  | more x i ihx ihi =>
      intro e r ⟨size, p, hxq, hip, hnum⟩
      obtain ⟨x', e₁, hx, hq⟩ := ihx hxq
      obtain ⟨id, loc, type, rfl, hloc⟩ := x.perform_loc hx
      cases hq
      rw [← (x.perform_wellTyped hx).2.top] at hip
      obtain ⟨i', e₂, hi, hp⟩ := ihi hip
      obtain ⟨t1, hscale⟩ : ∃ t1, scale i' (.array size r) = .ok (t1, r) :=
        (scale_iff hp).mpr ⟨⟨size, rfl⟩, hnum⟩
      have ht1 := (scale_wellTyped (i.perform_wellTyped hi).1 hscale).2
      have hadd : newArith .add loc t1 = .ok (.arith .add loc t1) :=
        typed_ok.mpr ⟨rfl, Ty.max_ne_none.mpr ⟨hloc, ht1⟩⟩
      exact ⟨_, e₂, perform_more.mpr ⟨id, loc, _, e₁, i', t1, r, _, hx, hi,
        hscale, hadd, rfl⟩, rfl⟩

/-! ## Declarations -/

theorem declare_iff {w : Word} {p : Ty} {e : Sem} {Γ : Ctx} :
    e.top.ctx.declare w p = some Γ ↔
      ∃ e', declare w p e = .ok ((), e') ∧ e'.top.ctx = Γ := by
  constructor
  · intro h
    cases htop : e.top with
    | nil =>
        rw [htop] at h
        cases h
    | cons table prev =>
        rw [htop] at h
        obtain ⟨hnone, hΓ⟩ := Option.ite_none_right_eq_some.mp h
        refine ⟨_, declare_ok.mpr ⟨table, prev, htop, ?_, rfl⟩,
          Option.some.inj hΓ⟩
        exact Option.map_eq_none_iff.mp
          ((lookup_map_type table w.ref).symm.trans hnone)
  · rintro ⟨e', h, rfl⟩
    obtain ⟨table, prev, htop, hnone, rfl⟩ := declare_ok.mp h
    rw [htop]
    exact if_pos ((lookup_map_type table w.ref).trans (congrArg _ hnone))

theorem performMore_iff {p : Ty} : ∀ {more : List (Sep × Word)} {e : Sem}
    {Γ : Ctx}, e.top.ctx.declareAll p (more.map Prod.snd) = some Γ ↔
      ∃ e', performMore p more e = .ok ((), e') ∧ e'.top.ctx = Γ := by
  intro more
  induction more with
  | nil =>
      intro e Γ
      constructor
      · intro h
        exact ⟨e, rfl, Option.some.inj h⟩
      · rintro ⟨e', h, rfl⟩
        cases h
        rfl
  | cons q more ih =>
      intro e Γ
      obtain ⟨sep, w⟩ := q
      have htop : (e.separated sep).top = e.top := by cases sep <;> rfl
      rw [List.map_cons, Ctx.declareAll, Option.bind_eq_some_iff, ← htop]
      constructor
      · intro ⟨Γ₁, hd, hmore⟩
        obtain ⟨e₁, hd', rfl⟩ := declare_iff.mp hd
        obtain ⟨e', hm, hΓ⟩ := ih.mp hmore
        exact ⟨e', performMore_cons.mpr ⟨e₁, hd', hm⟩, hΓ⟩
      · intro ⟨e', h, hΓ⟩
        obtain ⟨e₁, hd, hm⟩ := performMore_cons.mp h
        exact ⟨_, declare_iff.mpr ⟨e₁, hd, rfl⟩, ih.mpr ⟨e', hm, hΓ⟩⟩

theorem performDecls_iff : ∀ {ds : List Decl} {e : Sem} {Γ : Ctx},
    e.top.ctx.decls ds = some Γ ↔
      ∃ e', performDecls ds e = .ok ((), e') ∧ e'.top.ctx = Γ := by
  intro ds
  induction ds with
  | nil =>
      intro e Γ
      constructor
      · intro h
        exact ⟨e, rfl, Option.some.inj h⟩
      · rintro ⟨e', h, rfl⟩
        cases h
        rfl
  | cons d ds ih =>
      intro e Γ
      rw [Ctx.decls, Decl.words, Ctx.declareAll, Option.bind_eq_some_iff]
      constructor
      · intro ⟨Γ₂, hwords, hds⟩
        obtain ⟨Γ₁, hd, hmore⟩ := Option.bind_eq_some_iff.mp hwords
        obtain ⟨e₁, hd', rfl⟩ := declare_iff.mp hd
        obtain ⟨e₂, hm, rfl⟩ := performMore_iff.mp hmore
        obtain ⟨e', hds', hΓ⟩ := ih.mp hds
        exact ⟨e', performDecls_cons.mpr ⟨e₁, e₂, hd', hm, hds'⟩, hΓ⟩
      · intro ⟨e', h, hΓ⟩
        obtain ⟨e₁, e₂, hd, hm, hds⟩ := performDecls_cons.mp h
        refine ⟨_, Option.bind_eq_some_iff.mpr ⟨e₁.top.ctx, ?_, ?_⟩, ih.mpr
          ⟨e', hds, hΓ⟩⟩
        · exact declare_iff.mpr ⟨e₁, hd, rfl⟩
        · exact performMore_iff.mpr ⟨e₂, hm, rfl⟩

/-! ## Statements -/

/-- A statement leaves the names in scope as they were. -/
theorem STree.perform_top {k : SKind} (t : STree k) :
    ∀ {e e' : Sem} {r : Stmt}, t.perform e = .ok (r, e') → k = .stmt →
      e'.top = e.top := by
  induction t with
  | empty => intro e e' r h _; cases h; rfl
  | ifThen c s ih =>
      intro e e' r h _
      obtain ⟨x, e₁, s1, hx, hs, -, -⟩ := perform_ifThen.mp h
      exact (ih hs rfl).trans (c.perform_wellTyped hx).2.top
  | ifElse c s1 s2 ih1 ih2 =>
      intro e e' r h _
      obtain ⟨x, e₁, r1, e₂, r2, hx, h1, h2, -, -⟩ := perform_ifElse.mp h
      exact ((ih2 h2 rfl).trans (ih1 h1 rfl)).trans
        (c.perform_wellTyped hx).2.top
  | whileDo c s ih =>
      intro e e' r h _
      obtain ⟨x, e₁, s1, e₂, hx, hs, -, -, rfl⟩ := perform_whileDo.mp h
      exact (ih hs rfl).trans (c.perform_wellTyped hx).2.top
  | doWhile s c ih =>
      intro e e' r h _
      obtain ⟨s1, e₁, x, e₂, hs, hx, -, -, rfl⟩ := perform_doWhile.mp h
      have htop : e₁.top = e.entered.top := ih hs rfl
      exact (c.perform_wellTyped hx).2.top.trans htop
  | «break» =>
      intro e e' r h _
      obtain ⟨l, -, -, rfl⟩ := makeBreak_ok.mp h
      rfl
  | «continue» =>
      intro e e' r h _
      obtain ⟨l, -, -, rfl⟩ := makeContinue_ok.mp h
      rfl
  | block b ih =>
      intro e e' r h _
      obtain ⟨e₁, -, rfl⟩ := perform_block.mp h
      rfl
  | assign w x =>
      intro e e' r h _
      obtain ⟨id, e₁, y, hres, hy, -, -⟩ := perform_assign.mp h
      exact (x.perform_wellTyped hy).2.top.trans (resolve_scope hres).top
  | assignElem loc x =>
      intro e e' r h _
      obtain ⟨id, i, type, e₁, y, hloc, hy, -, -⟩ := perform_assignElem.mp h
      exact (x.perform_wellTyped hy).2.top.trans
        (loc.perform_wellTyped hloc).2.top
  | done ds => intro e e' r h hk; cases hk
  | cons ds s rest ihs ihr => intro e e' r h hk; cases hk

/-- The actions of a tree succeed only if it follows the rules. -/
theorem STree.checks_of_perform {k : SKind} (t : STree k) :
    ∀ {e e' : Sem} {r : Stmt}, t.perform e = .ok (r, e') →
      t.Checks e.top.ctx e.enclosing.isSome := by
  induction t with
  | empty => intro e e' r _; trivial
  | ifThen c s ih =>
      intro e e' r h
      obtain ⟨x, e₁, s1, hx, hs, hbool, -⟩ := perform_ifThen.mp h
      have hscope := (c.perform_wellTyped hx).2
      have hchecks := ih hs
      rw [hscope.top, hscope.enclosing] at hchecks
      exact ⟨ETree.hasType_of_type hx hbool, hchecks⟩
  | ifElse c s1 s2 ih1 ih2 =>
      intro e e' r h
      obtain ⟨x, e₁, r1, e₂, r2, hx, h1, h2, hbool, -⟩ :=
        perform_ifElse.mp h
      have hscope := (c.perform_wellTyped hx).2
      have hchecks1 := ih1 h1
      have hchecks2 := ih2 h2
      rw [s1.perform_top h1 rfl, (s1.perform_built h1).enclosing]
        at hchecks2
      rw [hscope.top, hscope.enclosing] at hchecks1 hchecks2
      exact ⟨ETree.hasType_of_type hx hbool, hchecks1, hchecks2⟩
  | whileDo c s ih =>
      intro e e' r h
      obtain ⟨x, e₁, s1, e₂, hx, hs, hbool, -, -⟩ := perform_whileDo.mp h
      have hscope := (c.perform_wellTyped hx).2
      have hchecks := ih hs
      rw [hscope.top, hscope.enclosing] at hchecks
      have hc : c.HasType e.entered.top.ctx .bool :=
        ETree.hasType_of_type hx hbool
      exact ⟨hc, hchecks⟩
  | doWhile s c ih =>
      intro e e' r h
      obtain ⟨s1, e₁, x, e₂, hs, hx, hbool, -, -⟩ := perform_doWhile.mp h
      have hchecks : s.Checks e.top.ctx true := ih hs
      have hc := ETree.hasType_of_type hx hbool
      rw [s.perform_top hs rfl] at hc
      exact ⟨hchecks, hc⟩
  | «break» =>
      intro e e' r h
      obtain ⟨l, hl, -, -⟩ := makeBreak_ok.mp h
      rw [hl]
      rfl
  | «continue» =>
      intro e e' r h
      obtain ⟨l, hl, -, -⟩ := makeContinue_ok.mp h
      rw [hl]
      rfl
  | block b ih =>
      intro e e' r h
      obtain ⟨e₁, hs, -⟩ := perform_block.mp h
      exact ih hs
  | assign w x =>
      intro e e' r h
      obtain ⟨id, e₁, y, hres, hy, hset, -⟩ := perform_assign.mp h
      obtain ⟨q, hq, hx⟩ := x.hasType_of_perform hy
      rw [(resolve_scope hres).top] at hx
      rw [hq] at hset
      refine ⟨id.type, q, ?_, hx, setCheck_iff.mp hset⟩
      rw [Env.lookup_ctx, (resolve_ok.mp hres).1]
      rfl
  | assignElem loc x =>
      intro e e' r h
      obtain ⟨id, i, type, e₁, y, hloc, hy, hset, -⟩ :=
        perform_assignElem.mp h
      obtain ⟨q, hq, hx⟩ := x.hasType_of_perform hy
      rw [(loc.perform_wellTyped hloc).2.top] at hx
      rw [hq] at hset
      exact ⟨type, q, ETree.hasType_of_type hloc rfl, hx,
        setElemCheck_iff.mp hset⟩
  | done ds =>
      intro e e' r h
      obtain ⟨hd, -⟩ := perform_done.mp h
      exact ⟨_, performDecls_iff.mpr ⟨e', hd, rfl⟩⟩
  | cons ds s rest ihs ihr =>
      intro e e' r h
      obtain ⟨e₁, s1, e₂, s2, hd, hs, hr, -⟩ := perform_cons.mp h
      have hchecks := ihs hs
      have hchecksr := ihr hr
      rw [s.perform_top hs rfl, (s.perform_built hs).enclosing] at hchecksr
      rw [(performDecls_loops ds hd).1] at hchecks hchecksr
      exact ⟨e₁.top.ctx, performDecls_iff.mpr ⟨e₁, hd, rfl⟩, hchecks,
        hchecksr⟩

/-- And on every tree that does, they do. -/
theorem STree.perform_of_checks {k : SKind} (t : STree k) :
    ∀ {e : Sem}, t.Checks e.top.ctx e.enclosing.isSome →
      ∃ r e', t.perform e = .ok (r, e') := by
  induction t with
  | empty => intro e _; exact ⟨_, e, rfl⟩
  | ifThen c s ih =>
      intro e ⟨hc, hs⟩
      obtain ⟨x, e₁, hx, hbool⟩ := c.perform_of_hasType hc
      have hscope := (c.perform_wellTyped hx).2
      rw [← hscope.top, ← hscope.enclosing] at hs
      obtain ⟨s1, e₂, hs'⟩ := ih hs
      exact ⟨_, e₂, perform_ifThen.mpr ⟨x, e₁, s1, hx, hs', hbool, rfl⟩⟩
  | ifElse c s1 s2 ih1 ih2 =>
      intro e ⟨hc, h1, h2⟩
      obtain ⟨x, e₁, hx, hbool⟩ := c.perform_of_hasType hc
      have hscope := (c.perform_wellTyped hx).2
      rw [← hscope.top, ← hscope.enclosing] at h1 h2
      obtain ⟨r1, e₂, h1'⟩ := ih1 h1
      rw [← s1.perform_top h1' rfl, ← (s1.perform_built h1').enclosing] at h2
      obtain ⟨r2, e₃, h2'⟩ := ih2 h2
      exact ⟨_, e₃, perform_ifElse.mpr
        ⟨x, e₁, r1, e₂, r2, hx, h1', h2', hbool, rfl⟩⟩
  | whileDo c s ih =>
      intro e ⟨hc, hs⟩
      obtain ⟨x, e₁, hx, hbool⟩ : ∃ x e₁, c.perform e.entered = .ok (x, e₁) ∧
          x.type = some .bool := c.perform_of_hasType hc
      have hscope := (c.perform_wellTyped hx).2
      have hs' : s.Checks e₁.top.ctx e₁.enclosing.isSome := by
        rw [hscope.top, hscope.enclosing]
        exact hs
      obtain ⟨s1, e₂, hs''⟩ := ih hs'
      exact ⟨_, _, perform_whileDo.mpr
        ⟨x, e₁, s1, e₂, hx, hs'', hbool, rfl, rfl⟩⟩
  | doWhile s c ih =>
      intro e ⟨hs, hc⟩
      obtain ⟨s1, e₁, hs'⟩ : ∃ s1 e₁, s.perform e.entered = .ok (s1, e₁) :=
        ih hs
      have hc' : c.HasType e₁.top.ctx .bool := by
        rw [s.perform_top hs' rfl]
        exact hc
      obtain ⟨x, e₂, hx, hbool⟩ := c.perform_of_hasType hc'
      exact ⟨_, _, perform_doWhile.mpr
        ⟨s1, e₁, x, e₂, hs', hx, hbool, rfl, rfl⟩⟩
  | «break» =>
      intro e h
      obtain ⟨l, hl⟩ := Option.isSome_iff_exists.mp h
      exact ⟨_, e, makeBreak_ok.mpr ⟨l, hl, rfl, rfl⟩⟩
  | «continue» =>
      intro e h
      obtain ⟨l, hl⟩ := Option.isSome_iff_exists.mp h
      exact ⟨_, e, makeContinue_ok.mpr ⟨l, hl, rfl, rfl⟩⟩
  | block b ih =>
      intro e h
      obtain ⟨r, e₁, hs⟩ : ∃ r e₁, b.perform e.opened = .ok (r, e₁) := ih h
      exact ⟨r, _, perform_block.mpr ⟨e₁, hs, rfl⟩⟩
  | assign w x =>
      intro e ⟨p, q, hw, hx, hrule⟩
      obtain ⟨id, hres, rfl⟩ := resolves_of_lookup hw
      rw [← (resolve_scope hres).top] at hx
      obtain ⟨y, e₂, hy, hq⟩ := x.perform_of_hasType hx
      refine ⟨_, e₂, perform_assign.mpr ⟨id, _, y, hres, hy, ?_, rfl⟩⟩
      rw [hq]
      exact setCheck_iff.mpr hrule
  | assignElem loc x =>
      intro e ⟨p, q, hloc, hx, hrule⟩
      obtain ⟨l, e₁, hl, hp⟩ := loc.perform_of_hasType hloc
      obtain ⟨id, i, type, rfl, -⟩ := loc.perform_loc hl
      cases hp
      rw [← (loc.perform_wellTyped hl).2.top] at hx
      obtain ⟨y, e₂, hy, hq⟩ := x.perform_of_hasType hx
      refine ⟨_, e₂, perform_assignElem.mpr
        ⟨id, i, p, e₁, y, hl, hy, ?_, rfl⟩⟩
      rw [hq]
      exact setElemCheck_iff.mpr hrule
  | done ds =>
      intro e ⟨Γ, hΓ⟩
      obtain ⟨e', hd, -⟩ := performDecls_iff.mp hΓ
      exact ⟨_, e', perform_done.mpr ⟨hd, rfl⟩⟩
  | cons ds s rest ihs ihr =>
      intro e ⟨Γ, hΓ, hs, hr⟩
      obtain ⟨e₁, hd, rfl⟩ := performDecls_iff.mp hΓ
      rw [← (performDecls_loops ds hd).1] at hs hr
      obtain ⟨s1, e₂, hs'⟩ := ihs hs
      rw [← s.perform_top hs' rfl, ← (s.perform_built hs').enclosing] at hr
      obtain ⟨s2, e₃, hr'⟩ := ihr hr
      exact ⟨_, e₃, perform_cons.mpr ⟨e₁, s1, e₂, s2, hd, hs', hr', rfl⟩⟩

theorem STree.perform_iff {k : SKind} {t : STree k} {e : Sem} :
    (∃ r e', t.perform e = .ok (r, e')) ↔
      t.Checks e.top.ctx e.enclosing.isSome :=
  ⟨fun ⟨_, _, h⟩ => t.checks_of_perform h, t.perform_of_checks⟩

end LearningLinux.FrontEnd
