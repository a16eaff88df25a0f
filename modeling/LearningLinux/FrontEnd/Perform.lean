import LearningLinux.FrontEnd.ParserSound

/-!
# The actions of a tree, one production at a time

What it takes for the actions of a tree to succeed, and what they leave: for
each action, and then for each production in terms of the trees below it.
Proofs about `perform` are inductions over trees that read these, in either
direction, and never unfold the actions themselves.
-/

namespace LearningLinux.FrontEnd

open Lib

/-! ## The constructors -/

theorem typed_ok {x y : Expr} :
    typed x = .ok y ↔ y = x ∧ x.type ≠ none := by
  rw [typed]
  split
  · next h => simp [h]
  · next h =>
      constructor
      · intro he
        cases he
        exact ⟨rfl, h⟩
      · intro ⟨he, _⟩
        rw [he]

theorem condition_ok {x : Expr} {message : String} {s s' : Stmt} :
    (condition x message >>= fun _ => Except.ok s) = .ok s' ↔
      x.type = some .bool ∧ s' = s := by
  rw [condition]
  by_cases hx : x.type = some .bool
  · rw [if_neg (not_not.mpr hx)]
    constructor
    · intro h
      cases h
      exact ⟨hx, rfl⟩
    · rintro ⟨-, rfl⟩
      rfl
  · rw [if_pos hx]
    exact ⟨nofun, fun h => absurd h.1 hx⟩

theorem newSet_ok {id : Id} {x : Expr} {s : Stmt} :
    newSet id x = .ok s ↔
      setCheck (some id.type) x.type ≠ none ∧ s = .set id x := by
  rw [newSet]
  split
  · next h => exact ⟨nofun, fun h' => absurd h h'.1⟩
  · next h =>
      constructor
      · intro hs
        cases hs
        exact ⟨h, rfl⟩
      · rintro ⟨-, rfl⟩
        rfl

theorem newSetElem_ok {a : Id} {i y : Expr} {type : Ty} {s : Stmt} :
    newSetElem a i type y = .ok s ↔
      setElemCheck (some type) y.type ≠ none ∧ s = .setElem a i y := by
  rw [newSetElem]
  split
  · next h => exact ⟨nofun, fun h' => absurd h h'.1⟩
  · next h =>
      constructor
      · intro hs
        cases hs
        exact ⟨h, rfl⟩
      · rintro ⟨-, rfl⟩
        rfl

/-- One subscript of a location. -/
theorem scale_ok {i t1 : Expr} {type type' : Ty} :
    scale i type = .ok (t1, type') ↔ ∃ size, type = .array size type' ∧
      newArith .mul i (.const (.num type'.width)) = .ok t1 := by
  cases type with
  | basic b =>
      refine ⟨nofun, fun ⟨size, harray, _⟩ => ?_⟩
      cases harray
  | array size of =>
      rw [scale]
      cases hn : newArith .mul i (.const (.num of.width)) with
      | error e =>
          refine ⟨nofun, fun ⟨size', harray, hn'⟩ => ?_⟩
          cases harray
          rw [hn] at hn'
          cases hn'
      | ok z =>
          constructor
          · intro h
            cases h
            exact ⟨size, rfl, hn⟩
          · intro ⟨size', harray, hn'⟩
            cases harray
            rw [hn] at hn'
            cases hn'
            rfl

/-! ## The actions -/

/-- The state after `openEnv`. -/
def Sem.opened (e : Sem) : Sem :=
  { e with
    top := ([] : Table) :: e.top
    log := .opened :: e.log }

/-- The state after `closeEnv` of a block that was opened in `e`. -/
def Sem.closed (e e' : Sem) : Sem :=
  { e' with
    top := e.top
    log := .closed :: e'.log }

/-- The state after `enterLoop`. -/
def Sem.entered (e : Sem) : Sem :=
  { e with
    loops := e.loops + 1
    enclosing := some e.loops }

/-- The state after `leaveLoop` of a loop that was entered in `e`. -/
def Sem.left (e e' : Sem) : Sem :=
  { e' with
    enclosing := e.enclosing }

/-- The state after `declare`, for a `top` that begins with `table`. -/
def Sem.declared (e : Sem) (w : Word) (p : Ty) (table : Table)
    (prev : Env) : Sem :=
  { e with
    top := table.put w ⟨w, p, e.used, e.now⟩ :: prev
    now := e.now + 1
    used := wrap (e.used + p.width)
    log := .decl ⟨w, p, e.used, e.now⟩ :: e.log }

theorem resolve_ok {w : Word} {e e' : Sem} {id : Id} :
    resolve w e = .ok (id, e') ↔
      e.top.get w = some id ∧ e' = { e with log := .use w id :: e.log } := by
  rw [resolve]
  cases h : e.top.get w with
  | none => simp
  | some j =>
      constructor
      · intro he
        cases he
        exact ⟨rfl, rfl⟩
      · intro ⟨hj, he⟩
        cases hj
        rw [he]

theorem declare_ok {w : Word} {p : Ty} {e e' : Sem} {u : Unit} :
    declare w p e = .ok (u, e') ↔ ∃ table prev, e.top = table :: prev ∧
      table.get w = none ∧ e' = e.declared w p table prev := by
  rw [declare]
  cases ht : e.top with
  | nil =>
      refine ⟨nofun, fun ⟨table, prev, hnil, _⟩ => ?_⟩
      cases hnil
  | cons table prev =>
      constructor
      · intro h
        dsimp only at h
        split at h
        · next hnone =>
            cases h
            exact ⟨table, prev, rfl, hnone, rfl⟩
        · cases h
      · rintro ⟨table', prev', hcons, hnone, rfl⟩
        cases hcons
        exact if_pos hnone

theorem makeBreak_ok {e e' : Sem} {s : Stmt} :
    makeBreak e = .ok (s, e') ↔
      ∃ l, e.enclosing = some l ∧ s = .break l ∧ e' = e := by
  rw [makeBreak]
  cases hc : e.enclosing with
  | none => exact ⟨nofun, nofun⟩
  | some l =>
      constructor
      · intro h
        cases h
        exact ⟨l, rfl, rfl, rfl⟩
      · rintro ⟨l', hl, rfl, rfl⟩
        cases hl
        rfl

theorem makeContinue_ok {e e' : Sem} {s : Stmt} :
    makeContinue e = .ok (s, e') ↔
      ∃ l, e.enclosing = some l ∧ s = .continue l ∧ e' = e := by
  rw [makeContinue]
  cases hc : e.enclosing with
  | none => exact ⟨nofun, nofun⟩
  | some l =>
      constructor
      · intro h
        cases h
        exact ⟨l, rfl, rfl, rfl⟩
      · rintro ⟨l', hl, rfl, rfl⟩
        cases hl
        rfl

/-! ## Expressions -/

namespace ETree

variable {e e' : Sem} {z : Expr}

theorem perform_binary {l : BinLevel} {x : ETree (.bin l)} {tok : Token}
    {op : BinOp} {h : l.op tok = some op} {y : ETree l.operand} :
    (ETree.binary x tok op h y).perform e = .ok (z, e') ↔
      ∃ x' y' e₁, x.perform e = .ok (x', e₁) ∧ y.perform e₁ = .ok (y', e') ∧
        newBin op x' y' = .ok z := by
  rw [ETree.perform]
  constructor
  · intro hz
    obtain ⟨x', e₁, hx, h₁⟩ := bind_ok.mp hz
    obtain ⟨y', e₂, hy, h₂⟩ := bind_ok.mp h₁
    obtain ⟨hnew, rfl⟩ := lift_ok.mp h₂
    exact ⟨x', y', e₁, hx, hy, hnew⟩
  · rintro ⟨x', y', e₁, hx, hy, hnew⟩
    exact bind_ok.mpr ⟨x', e₁, hx, bind_ok.mpr
      ⟨y', e', hy, lift_ok.mpr ⟨hnew, rfl⟩⟩⟩

theorem perform_relation {x y : ETree (.bin .expr)} {tok : Token}
    {op : RelOp} {h : relOp tok = some op} :
    (ETree.relation x tok op h y).perform e = .ok (z, e') ↔
      ∃ x' y' e₁, x.perform e = .ok (x', e₁) ∧ y.perform e₁ = .ok (y', e') ∧
        newRel op x' y' = .ok z := by
  rw [ETree.perform]
  constructor
  · intro hz
    obtain ⟨x', e₁, hx, h₁⟩ := bind_ok.mp hz
    obtain ⟨y', e₂, hy, h₂⟩ := bind_ok.mp h₁
    obtain ⟨hnew, rfl⟩ := lift_ok.mp h₂
    exact ⟨x', y', e₁, hx, hy, hnew⟩
  · rintro ⟨x', y', e₁, hx, hy, hnew⟩
    exact bind_ok.mpr ⟨x', e₁, hx, bind_ok.mpr
      ⟨y', e', hy, lift_ok.mpr ⟨hnew, rfl⟩⟩⟩

theorem perform_minus {x : ETree .unary} :
    (ETree.minus x).perform e = .ok (z, e') ↔
      ∃ x', x.perform e = .ok (x', e') ∧ newUnary x' = .ok z := by
  rw [ETree.perform]
  constructor
  · intro hz
    obtain ⟨x', e₁, hx, h₁⟩ := bind_ok.mp hz
    obtain ⟨hnew, rfl⟩ := lift_ok.mp h₁
    exact ⟨x', hx, hnew⟩
  · rintro ⟨x', hx, hnew⟩
    exact bind_ok.mpr ⟨x', e', hx, lift_ok.mpr ⟨hnew, rfl⟩⟩

theorem perform_bang {x : ETree .unary} :
    (ETree.bang x).perform e = .ok (z, e') ↔
      ∃ x', x.perform e = .ok (x', e') ∧ newNot x' = .ok z := by
  rw [ETree.perform]
  constructor
  · intro hz
    obtain ⟨x', e₁, hx, h₁⟩ := bind_ok.mp hz
    obtain ⟨hnew, rfl⟩ := lift_ok.mp h₁
    exact ⟨x', hx, hnew⟩
  · rintro ⟨x', hx, hnew⟩
    exact bind_ok.mpr ⟨x', e', hx, lift_ok.mpr ⟨hnew, rfl⟩⟩

theorem perform_var {w : Word} : (ETree.var w).perform e = .ok (z, e') ↔
    ∃ id, resolve w e = .ok (id, e') ∧ z = .id id := by
  rw [ETree.perform]
  constructor
  · intro hz
    obtain ⟨id, e₁, hres, h₁⟩ := bind_ok.mp hz
    cases pure_ok.mp h₁
    exact ⟨id, hres, rfl⟩
  · rintro ⟨id, hres, rfl⟩
    exact bind_ok.mpr ⟨id, e', hres, pure_ok.mpr rfl⟩

theorem perform_first {w : Word} {i : ETree (.bin .bool)} :
    (ETree.first w i).perform e = .ok (z, e') ↔
      ∃ id e₁ i' t1 type, resolve w e = .ok (id, e₁) ∧
        i.perform e₁ = .ok (i', e') ∧ scale i' id.type = .ok (t1, type) ∧
        z = .access id t1 type := by
  rw [ETree.perform]
  constructor
  · intro hz
    obtain ⟨id, e₁, hres, h₁⟩ := bind_ok.mp hz
    obtain ⟨i', e₂, hi, h₂⟩ := bind_ok.mp h₁
    obtain ⟨⟨t1, type⟩, e₃, hs, h₃⟩ := bind_ok.mp h₂
    obtain ⟨hscale, rfl⟩ := lift_ok.mp hs
    cases pure_ok.mp h₃
    exact ⟨id, e₁, i', t1, type, hres, hi, hscale, rfl⟩
  · rintro ⟨id, e₁, i', t1, type, hres, hi, hscale, rfl⟩
    exact bind_ok.mpr ⟨id, e₁, hres, bind_ok.mpr ⟨i', e', hi, bind_ok.mpr
      ⟨(t1, type), e', lift_ok.mpr ⟨hscale, rfl⟩, pure_ok.mpr rfl⟩⟩⟩

theorem perform_more {x : ETree .loc} {i : ETree (.bin .bool)} :
    (ETree.more x i).perform e = .ok (z, e') ↔
      ∃ id loc type e₁ i' t1 type' t2,
        x.perform e = .ok (.access id loc type, e₁) ∧
        i.perform e₁ = .ok (i', e') ∧ scale i' type = .ok (t1, type') ∧
        newArith .add loc t1 = .ok t2 ∧ z = .access id t2 type' := by
  rw [ETree.perform]
  constructor
  · intro hz
    obtain ⟨x', e₁, hx, h₁⟩ := bind_ok.mp hz
    cases x' with
    | access id loc type =>
        obtain ⟨i', e₂, hi, h₂⟩ := bind_ok.mp h₁
        obtain ⟨⟨t1, type'⟩, e₃, hs, h₃⟩ := bind_ok.mp h₂
        obtain ⟨hscale, rfl⟩ := lift_ok.mp hs
        obtain ⟨t2, e₄, ha, h₄⟩ := bind_ok.mp h₃
        obtain ⟨hadd, rfl⟩ := lift_ok.mp ha
        cases pure_ok.mp h₄
        exact ⟨id, loc, type, e₁, i', t1, type', t2, hx, hi, hscale, hadd,
          rfl⟩
    | _ => cases h₁
  · rintro ⟨id, loc, type, e₁, i', t1, type', t2, hx, hi, hscale, hadd, rfl⟩
    refine bind_ok.mpr ⟨.access id loc type, e₁, hx, ?_⟩
    refine bind_ok.mpr ⟨i', e', hi, ?_⟩
    refine bind_ok.mpr ⟨(t1, type'), e', lift_ok.mpr ⟨hscale, rfl⟩, ?_⟩
    exact bind_ok.mpr ⟨t2, e', lift_ok.mpr ⟨hadd, rfl⟩, pure_ok.mpr rfl⟩

/-- The actions of a location make an `Access`. -/
theorem perform_access (t : ETree .loc) (h : t.perform e = .ok (z, e')) :
    ∃ id i type, z = .access id i type := by
  cases t with
  | first w i =>
      obtain ⟨id, e₁, i', t1, type, -, -, -, rfl⟩ := perform_first.mp h
      exact ⟨id, t1, type, rfl⟩
  | more l i =>
      obtain ⟨id, loc, type, e₁, i', t1, type', t2, -, -, -, -, rfl⟩ :=
        perform_more.mp h
      exact ⟨id, t2, type', rfl⟩

end ETree

/-! ## Declarations -/

/-- The state after the separator of two declarators. -/
def Sem.separated (e : Sem) : Sep → Sem
  | .comma => e
  | .assign => { e with log := .assignSep :: e.log }

theorem performMore_cons {p : Ty} {sep : Sep} {w : Word}
    {more : List (Sep × Word)} {e e' : Sem} {u : Unit} :
    performMore p ((sep, w) :: more) e = .ok (u, e') ↔
      ∃ e₁, declare w p (e.separated sep) = .ok ((), e₁) ∧
        performMore p more e₁ = .ok (u, e') := by
  cases sep with
  | comma =>
      constructor
      · intro h
        obtain ⟨_, e₁, hd, h₁⟩ := bind_ok.mp h
        exact ⟨e₁, hd, h₁⟩
      · intro ⟨e₁, hd, h₁⟩
        exact bind_ok.mpr ⟨(), e₁, hd, h₁⟩
  | assign =>
      constructor
      · intro h
        obtain ⟨_, e₀, hr, h₀⟩ := bind_ok.mp h
        cases hr
        obtain ⟨_, e₁, hd, h₁⟩ := bind_ok.mp h₀
        exact ⟨e₁, hd, h₁⟩
      · intro ⟨e₁, hd, h₁⟩
        exact bind_ok.mpr ⟨(), _, rfl, bind_ok.mpr ⟨(), e₁, hd, h₁⟩⟩

theorem performDecls_cons {d : Decl} {ds : List Decl} {e e' : Sem}
    {u : Unit} : performDecls (d :: ds) e = .ok (u, e') ↔
      ∃ e₁ e₂, declare d.first d.type e = .ok ((), e₁) ∧
        performMore d.type d.more e₁ = .ok ((), e₂) ∧
        performDecls ds e₂ = .ok (u, e') := by
  rw [performDecls]
  constructor
  · intro h
    obtain ⟨_, e₂, hd, h₂⟩ := bind_ok.mp h
    obtain ⟨_, e₁, hf, hm⟩ := bind_ok.mp hd
    exact ⟨e₁, e₂, hf, hm, h₂⟩
  · rintro ⟨e₁, e₂, hf, hm, h₂⟩
    exact bind_ok.mpr ⟨(), e₂, bind_ok.mpr ⟨(), e₁, hf, hm⟩, h₂⟩

/-! ## Statements -/

namespace STree

variable {e e' : Sem} {r : Stmt}

theorem perform_ifThen {c : BoolTree} {s : STree .stmt} :
    (STree.ifThen c s).perform e = .ok (r, e') ↔
      ∃ x e₁ s1, c.perform e = .ok (x, e₁) ∧ s.perform e₁ = .ok (s1, e') ∧
        x.type = some .bool ∧ r = .if x s1 := by
  rw [STree.perform]
  constructor
  · intro h
    obtain ⟨x, e₁, hx, h₁⟩ := bind_ok.mp h
    obtain ⟨s1, e₂, hs, h₂⟩ := bind_ok.mp h₁
    obtain ⟨hnew, rfl⟩ := lift_ok.mp h₂
    exact ⟨x, e₁, s1, hx, hs, condition_ok.mp hnew⟩
  · rintro ⟨x, e₁, s1, hx, hs, hnew⟩
    exact bind_ok.mpr ⟨x, e₁, hx, bind_ok.mpr
      ⟨s1, e', hs, lift_ok.mpr ⟨condition_ok.mpr hnew, rfl⟩⟩⟩

theorem perform_ifElse {c : BoolTree} {t1 t2 : STree .stmt} :
    (STree.ifElse c t1 t2).perform e = .ok (r, e') ↔
      ∃ x e₁ s1 e₂ s2, c.perform e = .ok (x, e₁) ∧
        t1.perform e₁ = .ok (s1, e₂) ∧ t2.perform e₂ = .ok (s2, e') ∧
        x.type = some .bool ∧ r = .else x s1 s2 := by
  rw [STree.perform]
  constructor
  · intro h
    obtain ⟨x, e₁, hx, h₁⟩ := bind_ok.mp h
    obtain ⟨s1, e₂, hs1, h₂⟩ := bind_ok.mp h₁
    obtain ⟨s2, e₃, hs2, h₃⟩ := bind_ok.mp h₂
    obtain ⟨hnew, rfl⟩ := lift_ok.mp h₃
    exact ⟨x, e₁, s1, e₂, s2, hx, hs1, hs2, condition_ok.mp hnew⟩
  · rintro ⟨x, e₁, s1, e₂, s2, hx, hs1, hs2, hnew⟩
    exact bind_ok.mpr ⟨x, e₁, hx, bind_ok.mpr ⟨s1, e₂, hs1, bind_ok.mpr
      ⟨s2, e', hs2, lift_ok.mpr ⟨condition_ok.mpr hnew, rfl⟩⟩⟩⟩

theorem perform_whileDo {c : BoolTree} {s : STree .stmt} :
    (STree.whileDo c s).perform e = .ok (r, e') ↔
      ∃ x e₁ s1 e₂, c.perform e.entered = .ok (x, e₁) ∧
        s.perform e₁ = .ok (s1, e₂) ∧ x.type = some .bool ∧
        r = .while e.loops x s1 ∧ e' = e.left e₂ := by
  rw [STree.perform]
  constructor
  · intro h
    obtain ⟨⟨node, saved⟩, e₀, henter, h₀⟩ := bind_ok.mp h
    cases henter
    obtain ⟨x, e₁, hx, h₁⟩ := bind_ok.mp h₀
    obtain ⟨s1, e₂, hs, h₂⟩ := bind_ok.mp h₁
    obtain ⟨r, e₃, hinit, h₃⟩ := bind_ok.mp h₂
    obtain ⟨hnew, rfl⟩ := lift_ok.mp hinit
    obtain ⟨hbool, rfl⟩ := condition_ok.mp hnew
    obtain ⟨_, e₄, hleave, h₄⟩ := bind_ok.mp h₃
    cases hleave
    cases pure_ok.mp h₄
    exact ⟨x, e₁, s1, e₃, hx, hs, hbool, rfl, rfl⟩
  · rintro ⟨x, e₁, s1, e₂, hx, hs, hbool, rfl, rfl⟩
    refine bind_ok.mpr ⟨(e.loops, e.enclosing), e.entered, rfl, ?_⟩
    refine bind_ok.mpr ⟨x, e₁, hx, bind_ok.mpr ⟨s1, e₂, hs, ?_⟩⟩
    exact bind_ok.mpr ⟨_, e₂,
      lift_ok.mpr ⟨condition_ok.mpr ⟨hbool, rfl⟩, rfl⟩, rfl⟩

theorem perform_doWhile {s : STree .stmt} {c : BoolTree} :
    (STree.doWhile s c).perform e = .ok (r, e') ↔
      ∃ s1 e₁ x e₂, s.perform e.entered = .ok (s1, e₁) ∧
        c.perform e₁ = .ok (x, e₂) ∧ x.type = some .bool ∧
        r = .do e.loops s1 x ∧ e' = e.left e₂ := by
  rw [STree.perform]
  constructor
  · intro h
    obtain ⟨⟨node, saved⟩, e₀, henter, h₀⟩ := bind_ok.mp h
    cases henter
    obtain ⟨s1, e₁, hs, h₁⟩ := bind_ok.mp h₀
    obtain ⟨x, e₂, hx, h₂⟩ := bind_ok.mp h₁
    obtain ⟨r, e₃, hinit, h₃⟩ := bind_ok.mp h₂
    obtain ⟨hnew, rfl⟩ := lift_ok.mp hinit
    obtain ⟨hbool, rfl⟩ := condition_ok.mp hnew
    obtain ⟨_, e₄, hleave, h₄⟩ := bind_ok.mp h₃
    cases hleave
    cases pure_ok.mp h₄
    exact ⟨s1, e₁, x, e₃, hs, hx, hbool, rfl, rfl⟩
  · rintro ⟨s1, e₁, x, e₂, hs, hx, hbool, rfl, rfl⟩
    refine bind_ok.mpr ⟨(e.loops, e.enclosing), e.entered, rfl, ?_⟩
    refine bind_ok.mpr ⟨s1, e₁, hs, bind_ok.mpr ⟨x, e₂, hx, ?_⟩⟩
    exact bind_ok.mpr ⟨_, e₂,
      lift_ok.mpr ⟨condition_ok.mpr ⟨hbool, rfl⟩, rfl⟩, rfl⟩

theorem perform_block {b : STree .stmts} :
    (STree.block b).perform e = .ok (r, e') ↔
      ∃ e₁, b.perform e.opened = .ok (r, e₁) ∧ e' = e.closed e₁ := by
  rw [STree.perform]
  constructor
  · intro h
    obtain ⟨saved, e₀, hopen, h₀⟩ := bind_ok.mp h
    cases hopen
    obtain ⟨s, e₁, hs, h₁⟩ := bind_ok.mp h₀
    obtain ⟨_, e₂, hclose, h₂⟩ := bind_ok.mp h₁
    cases hclose
    cases pure_ok.mp h₂
    exact ⟨e₁, hs, rfl⟩
  · rintro ⟨e₁, hs, rfl⟩
    refine bind_ok.mpr ⟨e.top, e.opened, rfl, ?_⟩
    exact bind_ok.mpr ⟨r, e₁, hs, rfl⟩

theorem perform_assign {w : Word} {x : BoolTree} :
    (STree.assign w x).perform e = .ok (r, e') ↔
      ∃ id e₁ y, resolve w e = .ok (id, e₁) ∧ x.perform e₁ = .ok (y, e') ∧
        setCheck (some id.type) y.type ≠ none ∧ r = .set id y := by
  rw [STree.perform]
  constructor
  · intro h
    obtain ⟨id, e₁, hres, h₁⟩ := bind_ok.mp h
    obtain ⟨y, e₂, hy, h₂⟩ := bind_ok.mp h₁
    obtain ⟨hnew, rfl⟩ := lift_ok.mp h₂
    exact ⟨id, e₁, y, hres, hy, newSet_ok.mp hnew⟩
  · rintro ⟨id, e₁, y, hres, hy, hnew⟩
    exact bind_ok.mpr ⟨id, e₁, hres, bind_ok.mpr
      ⟨y, e', hy, lift_ok.mpr ⟨newSet_ok.mpr hnew, rfl⟩⟩⟩

theorem perform_assignElem {loc : ETree .loc} {x : BoolTree} :
    (STree.assignElem loc x).perform e = .ok (r, e') ↔
      ∃ id i type e₁ y, loc.perform e = .ok (.access id i type, e₁) ∧
        x.perform e₁ = .ok (y, e') ∧
        setElemCheck (some type) y.type ≠ none ∧ r = .setElem id i y := by
  rw [STree.perform]
  constructor
  · intro h
    obtain ⟨l, e₁, hloc, h₁⟩ := bind_ok.mp h
    cases l with
    | access id i type =>
        obtain ⟨y, e₂, hy, h₂⟩ := bind_ok.mp h₁
        obtain ⟨hnew, rfl⟩ := lift_ok.mp h₂
        exact ⟨id, i, type, e₁, y, hloc, hy, newSetElem_ok.mp hnew⟩
    | _ => cases h₁
  · rintro ⟨id, i, type, e₁, y, hloc, hy, hnew⟩
    refine bind_ok.mpr ⟨.access id i type, e₁, hloc, ?_⟩
    exact bind_ok.mpr ⟨y, e', hy, lift_ok.mpr ⟨newSetElem_ok.mpr hnew, rfl⟩⟩

theorem perform_done {ds : List Decl} :
    (STree.done ds).perform e = .ok (r, e') ↔
      performDecls ds e = .ok ((), e') ∧ r = .null := by
  rw [STree.perform]
  constructor
  · intro h
    obtain ⟨_, e₁, hd, h₁⟩ := bind_ok.mp h
    cases pure_ok.mp h₁
    exact ⟨hd, rfl⟩
  · rintro ⟨hd, rfl⟩
    exact bind_ok.mpr ⟨(), e', hd, rfl⟩

theorem perform_cons {ds : List Decl} {s : STree .stmt}
    {rest : STree .stmts} :
    (STree.cons ds s rest).perform e = .ok (r, e') ↔
      ∃ e₁ s1 e₂ s2, performDecls ds e = .ok ((), e₁) ∧
        s.perform e₁ = .ok (s1, e₂) ∧ rest.perform e₂ = .ok (s2, e') ∧
        r = .seq s1 s2 := by
  rw [STree.perform]
  constructor
  · intro h
    obtain ⟨_, e₁, hd, h₁⟩ := bind_ok.mp h
    obtain ⟨s1, e₂, hs1, h₂⟩ := bind_ok.mp h₁
    obtain ⟨s2, e₃, hs2, h₃⟩ := bind_ok.mp h₂
    cases pure_ok.mp h₃
    exact ⟨e₁, s1, e₂, s2, hd, hs1, hs2, rfl⟩
  · rintro ⟨e₁, s1, e₂, s2, hd, hs1, hs2, rfl⟩
    exact bind_ok.mpr ⟨(), e₁, hd, bind_ok.mpr ⟨s1, e₂, hs1, bind_ok.mpr
      ⟨s2, e', hs2, rfl⟩⟩⟩

end STree

end LearningLinux.FrontEnd
