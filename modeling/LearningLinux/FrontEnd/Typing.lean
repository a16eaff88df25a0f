import LearningLinux.FrontEnd.Termination

/-!
# Types of accepted programs

The tests that keep the types in order stand in the constructors of nine
classes. `Typed` is what they add up to: what the operands, the subscripts,
the conditions and both sides of the assignments of a tree are allowed to be.
A tree that has been accepted is typed, and code generation neither changes
the type of an expression nor fails a test when it builds its nodes anew.

A `SetElem` node does not keep the type of the element it assigns to. It can
be read off the index, which `offset` builds as a product for the first
subscript and a sum for every further one.
-/

namespace LearningLinux.FrontEnd

open Lib

/-- The type behind so many subscripts. -/
def Ty.element : Nat → Ty → Option Ty
  | 0, p => some p
  | n + 1, .array _ of => of.element n
  | _ + 1, .basic _ => none

/-- The number of subscripts an index has been built from. -/
def Expr.subscripts : Expr → Nat
  | .arith .add loc _ => loc.subscripts + 1
  | _ => 1

def Expr.Typed : Expr → Prop
  | .id _ => True
  | .temp _ _ => True
  | .const _ => True
  | .arith _ x y => Ty.numeric x.type ∧ Ty.numeric y.type ∧ x.Typed ∧ y.Typed
  | .unary x => Ty.numeric x.type ∧ x.Typed
  | .access _ i _ => isArray i.type = false ∧ i.Typed
  | .or x y => x.type = some .bool ∧ y.type = some .bool ∧ x.Typed ∧ y.Typed
  | .and x y => x.type = some .bool ∧ y.type = some .bool ∧ x.Typed ∧ y.Typed
  | .not x => x.type = some .bool ∧ x.Typed
  | .rel _ x y =>
      isArray x.type = false ∧ isArray y.type = false ∧ x.Typed ∧ y.Typed

def Stmt.Typed : Stmt → Prop
  | .null => True
  | .set id x =>
      id.type.isArray = false ∧ isArray x.type = false ∧ x.Typed
  | .setElem a i x =>
      (∃ p, a.type.element i.subscripts = some p ∧ p.isArray = false) ∧
        isArray i.type = false ∧ isArray x.type = false ∧ i.Typed ∧ x.Typed
  | .if x s => x.type = some .bool ∧ x.Typed ∧ s.Typed
  | .else x s1 s2 =>
      x.type = some .bool ∧ x.Typed ∧ s1.Typed ∧ s2.Typed
  | .while _ x s => x.type = some .bool ∧ x.Typed ∧ s.Typed
  | .do _ s x => x.type = some .bool ∧ x.Typed ∧ s.Typed
  | .break _ => True
  | .continue _ => True
  | .seq s1 s2 => s1.Typed ∧ s2.Typed

/-- An expression and all those in it. -/
def Expr.exprs : Expr → List Expr
  | .arith op x y => .arith op x y :: x.exprs ++ y.exprs
  | .unary x => .unary x :: x.exprs
  | .access a i type => .access a i type :: i.exprs
  | .or x y => .or x y :: x.exprs ++ y.exprs
  | .and x y => .and x y :: x.exprs ++ y.exprs
  | .not x => .not x :: x.exprs
  | .rel op x y => .rel op x y :: x.exprs ++ y.exprs
  | e => [e]

/-- All expressions of a statement. -/
def Stmt.exprs : Stmt → List Expr
  | .set _ x => x.exprs
  | .setElem _ i x => i.exprs ++ x.exprs
  | .if x s => x.exprs ++ s.exprs
  | .else x s1 s2 => x.exprs ++ s1.exprs ++ s2.exprs
  | .while _ x s => x.exprs ++ s.exprs
  | .do _ s x => s.exprs ++ x.exprs
  | .seq s1 s2 => s1.exprs ++ s2.exprs
  | _ => []

/-! ## The element an index leads to -/

theorem Ty.element_succ : ∀ {n : Nat} {p : Ty} {size : Num} {of : Ty},
    p.element n = some (.array size of) → p.element (n + 1) = some of := by
  intro n
  induction n with
  | zero =>
      intro p size of h
      rw [Option.some.inj h]
      rfl
  | succ n ih =>
      intro p size of h
      cases p with
      | basic b => cases h
      | array size' of' => exact ih h

/-- No operator makes an `Access`. -/
theorem newBin_access {op : BinOp} {x y : Expr} {a : Id} {i : Expr}
    {type : Ty} (h : newBin op x y = .ok (.access a i type)) : False := by
  cases op with
  | or => cases (typed_ok.mp h).1
  | and => cases (typed_ok.mp h).1
  | rel op => cases (typed_ok.mp h).1
  | arith op => cases (typed_ok.mp h).1

/-- What is true of the index of one subscript, and stays true as subscripts
are added, is true of every `Access` that the actions make. -/
theorem ETree.perform_access_ind {P : Id → Expr → Ty → Prop}
    (hfirst : ∀ {a : Id} {j t1 : Expr} {type : Ty},
      scale j a.type = .ok (t1, type) → P a t1 type)
    (hmore : ∀ {a : Id} {loc j t1 t2 : Expr} {type type' : Ty},
      P a loc type → scale j type = .ok (t1, type') →
      newArith .add loc t1 = .ok t2 → P a t2 type')
    {k : Level} (t : ETree k) :
    ∀ {e e' : Sem} {a : Id} {i : Expr} {type : Ty},
      t.perform e = .ok (.access a i type, e') → P a i type := by
  induction t with
  | binary x tok op h y ihx ihy =>
      intro e e' a i type hz
      obtain ⟨x', y', e₁, -, -, hnew⟩ := perform_binary.mp hz
      exact (newBin_access hnew).elim
  | operand l x ih => intro e e' a i type hz; exact ih hz
  | relation x tok op h y ihx ihy =>
      intro e e' a i type hz
      obtain ⟨x', y', e₁, -, -, hnew⟩ := perform_relation.mp hz
      cases (typed_ok.mp hnew).1
  | plain x ih => intro e e' a i type hz; exact ih hz
  | minus x ih =>
      intro e e' a i type hz
      obtain ⟨x', -, hnew⟩ := perform_minus.mp hz
      cases (typed_ok.mp hnew).1
  | bang x ih =>
      intro e e' a i type hz
      obtain ⟨x', -, hnew⟩ := perform_bang.mp hz
      cases (typed_ok.mp hnew).1
  | single x ih => intro e e' a i type hz; exact ih hz
  | paren x ih => intro e e' a i type hz; exact ih hz
  | num n => intro e e' a i type hz; cases hz
  | real r => intro e e' a i type hz; cases hz
  | true => intro e e' a i type hz; cases hz
  | false => intro e e' a i type hz; cases hz
  | var w =>
      intro e e' a i type hz
      obtain ⟨id, -, hid⟩ := perform_var.mp hz
      cases hid
  | elem x ih => intro e e' a i type hz; exact ih hz
  | first w j ih =>
      intro e e' a i type hz
      obtain ⟨id, e₁, j', t1, type', -, -, hscale, hz'⟩ :=
        perform_first.mp hz
      cases hz'
      exact hfirst hscale
  | more x j ihx ihj =>
      intro e e' a i type hz
      obtain ⟨id, loc, type', e₁, j', t1, type'', t2, hx, -, hscale, hadd,
        hz'⟩ := perform_more.mp hz
      cases hz'
      exact hmore (ihx hx) hscale hadd

theorem ETree.perform_element {k : Level} (t : ETree k) {e e' : Sem} {a : Id}
    {i : Expr} {type : Ty} (h : t.perform e = .ok (.access a i type, e')) :
    a.type.element i.subscripts = some type := by
  refine t.perform_access_ind
    (P := fun a i type => a.type.element i.subscripts = some type) ?_ ?_ h
  · intro a j t1 type hscale
    obtain ⟨size, harray, hn⟩ := scale_ok.mp hscale
    obtain ⟨rfl, -⟩ := typed_ok.mp hn
    rw [harray]
    rfl
  · intro a loc j t1 t2 type type' hloc hscale hadd
    obtain ⟨size, harray, -⟩ := scale_ok.mp hscale
    obtain ⟨rfl, -⟩ := typed_ok.mp hadd
    rw [harray] at hloc
    exact Ty.element_succ hloc

/-! ## What the tests let through -/

theorem numeric_not_array {p : Option Ty} (h : Ty.numeric p = true) :
    isArray p = false := by
  match p with
  | none => rfl
  | some (.basic b) => rfl
  | some (.array n of) => cases h

theorem bool_not_array {p : Option Ty} (h : p = some .bool) :
    isArray p = false := by
  rw [h]
  rfl

theorem relCheck_not_array {p q : Option Ty} (h : relCheck p q ≠ none) :
    isArray p = false ∧ isArray q = false := by
  by_cases hc : isArray p ∨ isArray q
  · rw [relCheck, if_pos hc] at h
    exact absurd rfl h
  · simpa using hc

theorem setCheck_not_array {p q : Option Ty} (h : setCheck p q ≠ none) :
    isArray p = false ∧ isArray q = false := by
  rw [setCheck] at h
  split at h
  · next hn => exact ⟨numeric_not_array hn.1, numeric_not_array hn.2⟩
  · split at h
    · next hb => exact ⟨bool_not_array hb.1, bool_not_array hb.2⟩
    · exact absurd rfl h

theorem setElemCheck_not_array {p q : Option Ty}
    (h : setElemCheck p q ≠ none) : isArray p = false ∧ isArray q = false := by
  by_cases hc : isArray p ∨ isArray q
  · rw [setElemCheck, if_pos hc] at h
    exact absurd rfl h
  · simpa using hc

theorem Expr.WellTyped.typed {e : Expr} (h : e.WellTyped) : e.Typed := by
  induction e with
  | id i => trivial
  | temp n type => trivial
  | const c => trivial
  | arith op x y ihx ihy => exact ⟨h.2.2.1, h.2.2.2, ihx h.1, ihy h.2.1⟩
  | unary x ih => exact ⟨h.2, ih h.1⟩
  | access a i type ih => exact ⟨numeric_not_array h.2, ih h.1⟩
  | or x y ihx ihy => exact ⟨h.2.2.1, h.2.2.2, ihx h.1, ihy h.2.1⟩
  | and x y ihx ihy => exact ⟨h.2.2.1, h.2.2.2, ihx h.1, ihy h.2.1⟩
  | not x ih => exact ⟨h.2, ih h.1⟩
  | rel op x y ihx ihy =>
      obtain ⟨hx, hy⟩ := relCheck_not_array h.2.2
      exact ⟨hx, hy, ihx h.1, ihy h.2.1⟩

theorem STree.perform_typed {k : SKind} (t : STree k) :
    ∀ {e e' : Sem} {s : Stmt}, t.perform e = .ok (s, e') → s.Typed := by
  induction t with
  | empty => intro e e' s h; cases h; trivial
  | ifThen c b ih =>
      intro e e' s h
      obtain ⟨x, e₁, y, hx, hy, hbool, rfl⟩ := perform_ifThen.mp h
      exact ⟨hbool, (c.perform_wellTyped hx).1.typed, ih hy⟩
  | ifElse c b1 b2 ih1 ih2 =>
      intro e e' s h
      obtain ⟨x, e₁, y, e₂, z, hx, hy, hz, hbool, rfl⟩ := perform_ifElse.mp h
      exact ⟨hbool, (c.perform_wellTyped hx).1.typed, ih1 hy, ih2 hz⟩
  | whileDo c b ih =>
      intro e e' s h
      obtain ⟨x, e₁, y, e₂, hx, hy, hbool, rfl, -⟩ := perform_whileDo.mp h
      exact ⟨hbool, (c.perform_wellTyped hx).1.typed, ih hy⟩
  | doWhile b c ih =>
      intro e e' s h
      obtain ⟨y, e₁, x, e₂, hy, hx, hbool, rfl, -⟩ := perform_doWhile.mp h
      exact ⟨hbool, (c.perform_wellTyped hx).1.typed, ih hy⟩
  | «break» =>
      intro e e' s h
      obtain ⟨l, -, rfl, -⟩ := makeBreak_ok.mp h
      trivial
  | «continue» =>
      intro e e' s h
      obtain ⟨l, -, rfl, -⟩ := makeContinue_ok.mp h
      trivial
  | block b ih =>
      intro e e' s h
      obtain ⟨e₁, hs, -⟩ := perform_block.mp h
      exact ih hs
  | assign w x =>
      intro e e' s h
      obtain ⟨id, e₁, y, -, hy, hc, rfl⟩ := perform_assign.mp h
      obtain ⟨hid, hval⟩ := setCheck_not_array hc
      exact ⟨hid, hval, (x.perform_wellTyped hy).1.typed⟩
  | assignElem loc x =>
      intro e e' s h
      obtain ⟨id, i, type, e₁, y, hloc, hy, hc, rfl⟩ :=
        perform_assignElem.mp h
      obtain ⟨htype, hval⟩ := setElemCheck_not_array hc
      have hindex := (loc.perform_wellTyped hloc).1.typed
      exact ⟨⟨type, loc.perform_element hloc, htype⟩, hindex.1, hval,
        hindex.2, (x.perform_wellTyped hy).1.typed⟩
  | done ds =>
      intro e e' s h
      obtain ⟨-, rfl⟩ := perform_done.mp h
      trivial
  | cons ds b rest ihb ihr =>
      intro e e' s h
      obtain ⟨e₁, y, e₂, z, -, hy, hz, rfl⟩ := perform_cons.mp h
      exact ⟨ihb hy, ihr hz⟩

/-! ## Code generation keeps the types -/

theorem Expr.WellTyped.of_mem {e d : Expr} (h : e.WellTyped)
    (hd : d ∈ e.exprs) : d.WellTyped := by
  induction e with
  | id i => rw [List.mem_singleton.mp hd]; exact h
  | temp n type => rw [List.mem_singleton.mp hd]; exact h
  | const c => rw [List.mem_singleton.mp hd]; exact h
  | arith op x y ihx ihy =>
      simp only [Expr.exprs, List.mem_cons, List.mem_append] at hd
      obtain (rfl | hx) | hy := hd
      · exact h
      · exact ihx h.1 hx
      · exact ihy h.2.1 hy
  | unary x ih =>
      obtain rfl | hx := List.mem_cons.mp hd
      · exact h
      · exact ih h.1 hx
  | access a i type ih =>
      obtain rfl | hx := List.mem_cons.mp hd
      · exact h
      · exact ih h.1 hx
  | or x y ihx ihy =>
      simp only [Expr.exprs, List.mem_cons, List.mem_append] at hd
      obtain (rfl | hx) | hy := hd
      · exact h
      · exact ihx h.1 hx
      · exact ihy h.2.1 hy
  | and x y ihx ihy =>
      simp only [Expr.exprs, List.mem_cons, List.mem_append] at hd
      obtain (rfl | hx) | hy := hd
      · exact h
      · exact ihx h.1 hx
      · exact ihy h.2.1 hy
  | not x ih =>
      obtain rfl | hx := List.mem_cons.mp hd
      · exact h
      · exact ih h.1 hx
  | rel op x y ihx ihy =>
      simp only [Expr.exprs, List.mem_cons, List.mem_append] at hd
      obtain (rfl | hx) | hy := hd
      · exact h
      · exact ihx h.1 hx
      · exact ihy h.2.1 hy

theorem Stmt.WellTyped.of_mem {s : Stmt} {d : Expr} (h : s.WellTyped)
    (hd : d ∈ s.exprs) : d.WellTyped := by
  induction s with
  | set id x => exact h.1.of_mem hd
  | setElem a i x =>
      obtain hi | hx := List.mem_append.mp hd
      · exact h.1.of_mem hi
      · exact h.2.2.1.of_mem hx
  | «if» x s ih =>
      obtain hx | hs := List.mem_append.mp hd
      · exact h.1.of_mem hx
      · exact ih h.2.2 hs
  | «else» x s1 s2 ih1 ih2 =>
      simp only [Stmt.exprs, List.mem_append] at hd
      obtain (hx | hs1) | hs2 := hd
      · exact h.1.of_mem hx
      · exact ih1 h.2.2.1 hs1
      · exact ih2 h.2.2.2 hs2
  | «while» l x s ih =>
      obtain hx | hs := List.mem_append.mp hd
      · exact h.1.of_mem hx
      · exact ih h.2.2 hs
  | «do» l s x ih =>
      obtain hs | hx := List.mem_append.mp hd
      · exact ih h.2.2 hs
      · exact h.1.of_mem hx
  | seq s1 s2 ih1 ih2 =>
      obtain hs1 | hs2 := List.mem_append.mp hd
      · exact ih1 h.1 hs1
      · exact ih2 h.2 hs2
  | _ => cases hd

theorem Reduces.typed {e x : Expr} {c c' : Nat} {k : List Item}
    (h : Reduces e x c c' k) (he : e.Typed) : x.Typed := by
  cases h with
  | op hg => trivial
  | same hs => exact he

theorem OpGen.typed {e g : Expr} {c c' : Nat} {k : List Item}
    (h : OpGen e g c c' k) (he : e.Typed) : g.type = e.type ∧ g.Typed := by
  cases h with
  | arith hx hy =>
      obtain ⟨hnx, hny, htx, hty⟩ := he
      refine ⟨?_, ?_, ?_, hx.typed htx, hy.typed hty⟩
      · rw [Expr.type, Expr.type, hx.type, hy.type]
      · rw [hx.type]
        exact hnx
      · rw [hy.type]
        exact hny
  | unary hx =>
      refine ⟨?_, ?_, hx.typed he.2⟩
      · rw [Expr.type, Expr.type, hx.type]
      · rw [hx.type]
        exact he.1
  | access hi =>
      refine ⟨rfl, ?_, hi.typed he.2⟩
      rw [hi.type]
      exact he.1

theorem Gens.typed {e g : Expr} {σ σ' : Counters} {k : Chunk}
    (h : Gens e g σ σ' k) (he : e.Typed) : g.type = e.type ∧ g.Typed := by
  cases h with
  | op hg => exact hg.typed he
  | same ho hl => exact ⟨rfl, he⟩
  | logical hl hj => exact ⟨rfl, trivial⟩

/-- A method of code generation on the expression `e` returns an expression of
the same type, in every state. -/
def KeepsType (e : Expr) (m : G Expr) : Prop :=
  ∀ g : GState, ∃ x g', m g = .ok (x, g') ∧ x.type = e.type ∧ x.Typed

theorem Expr.WellTyped.gen_keeps {e : Expr} (h : e.WellTyped) :
    KeepsType e e.gen := by
  intro g
  obtain ⟨x, σ, k, hx, hrun⟩ := Expr.gen_run h g.counters
  exact ⟨x, _, hrun g rfl, hx.typed h.typed⟩

theorem Expr.WellTyped.reduce_keeps {e : Expr} (h : e.WellTyped) :
    KeepsType e e.reduce := by
  intro g
  obtain ⟨x, c, k, hx, hrun⟩ := h.reduces g.labels g.count
  exact ⟨x, _, hrun g rfl, hx.type, hx.typed h.typed⟩

/-! ## Accepted programs -/

/-- What the parser accepts is typed; the code generator, which is all that is
left to run, keeps the type of every expression and does not throw. -/
theorem program_typed {toks : List Token} {s : Stmt} {st : PState}
    (h : block true (enoughFuel toks) ⟨toks, Sem.init⟩ = .ok (s, st)) :
    s.Typed ∧ (∀ e ∈ s.exprs, KeepsType e e.gen ∧ KeepsType e e.reduce) ∧
      ∃ o, program toks = .ok o ∧ o.stmt = s := by
  obtain ⟨b, rest, -, -, hp⟩ := block_sound (stmtSound _).stmts h
  have hw := ((STree.block b).perform_built hp).wellTyped
  obtain ⟨g, hg⟩ := genProgram_of_block h
  refine ⟨(STree.block b).perform_typed hp, fun e he => ?_,
    ⟨s, st.sem.log, 1, 2, g⟩, ?_, rfl⟩
  · exact ⟨(hw.of_mem he).gen_keeps, (hw.of_mem he).reduce_keeps⟩
  · rw [program, h]
    show (genProgram s GState.init >>= _) = _
    rw [hg]
    rfl

/-- Elements of an array on both sides, mixed numbers, a condition. -/
def typedText : List UInt8 :=
  ("\x7b int[2][3] a; float x; bool b; a[1][2] = a[0][1] * 2; " ++
    "x = -x + a[1][1]; b = x < 1 && !b; if (b) x = 1.5; \x7d").toUTF8.toList

theorem program_typed_array : ∃ s st,
    block true (enoughFuel (tokenize typedText))
      ⟨tokenize typedText, Sem.init⟩ = .ok (s, st) ∧ s.exprs ≠ [] ∧
    s.Typed ∧ (∀ e ∈ s.exprs, KeepsType e e.gen ∧ KeepsType e e.reduce) ∧
      ∃ o, program (tokenize typedText) = .ok o ∧ o.stmt = s := by
  obtain ⟨⟨s, st⟩, h, hs⟩ := exists_of_okAnd
    (p := fun r => r.1.exprs.length == 36)
    (x := block true (enoughFuel (tokenize typedText))
      ⟨tokenize typedText, Sem.init⟩) (by decide +kernel)
  have hne : s.exprs ≠ [] := by
    intro hnil
    rw [hnil] at hs
    cases hs
  exact ⟨s, st, h, hne, program_typed h⟩

end LearningLinux.FrontEnd
