import LearningLinux.FrontEnd.Perform

/-!
# The trees of accepted programs

What the constructors check, and what the parser does with
`Stmt.Enclosing`, as properties of the syntax trees themselves: every node
has the operand types its class asks for (`WellTyped`), and every `break` and
`continue` points to the innermost loop around it, whose number is smaller
than those of the loops inside (`LoopsIn`). Both are proved over the parse
tree the program was built from.
-/

namespace LearningLinux.FrontEnd

open Lib

/-! ## Types of the constructors -/

theorem Ty.max_ne_none {p q : Option Ty} :
    Ty.max p q ≠ none ↔ Ty.numeric p = true ∧ Ty.numeric q = true := by
  rw [Ty.max]
  by_cases h : ¬ Ty.numeric p ∨ ¬ Ty.numeric q
  · rw [if_pos h]
    simp only [ne_eq, not_true_eq_false, false_iff]
    intro ⟨hp, hq⟩
    rcases h with h | h
    · exact h hp
    · exact h hq
  · rw [if_neg h]
    have hnum : Ty.numeric p = true ∧ Ty.numeric q = true := by
      simpa using h
    refine ⟨fun _ => hnum, fun _ => ?_⟩
    split
    · simp
    · split <;> simp

theorem logicalCheck_ne_none {p q : Option Ty} :
    logicalCheck p q ≠ none ↔ p = some .bool ∧ q = some .bool := by
  rw [logicalCheck]
  split
  · next h => exact ⟨fun _ => h, fun _ => by simp⟩
  · next h =>
      constructor
      · intro hc
        exact absurd rfl hc
      · intro hc
        exact absurd hc h

theorem Ty.max_numeric {p q : Option Ty} (h : Ty.max p q ≠ none) :
    Ty.numeric (Ty.max p q) = true := by
  obtain ⟨hp, hq⟩ := Ty.max_ne_none.mp h
  rw [Ty.max, if_neg (by simp [hp, hq])]
  split
  · rfl
  · split <;> rfl

theorem relCheck_bool {p q : Option Ty} (h : relCheck p q ≠ none) :
    relCheck p q = some .bool := by
  rw [relCheck] at h ⊢
  split
  · next hc => rw [if_pos hc] at h; exact absurd rfl h
  · next hc =>
      rw [if_neg hc] at h
      split
      · rfl
      · next hn =>
          rw [if_neg hn] at h
          split
          · rfl
          · next he => rw [if_neg he] at h; exact absurd rfl h

theorem logicalCheck_bool {p q : Option Ty} (h : logicalCheck p q ≠ none) :
    logicalCheck p q = some .bool := by
  rw [logicalCheck, if_pos (logicalCheck_ne_none.mp h)]

/-! ## Well-typed trees -/

/-- A tree as the parser builds it: typed everywhere, and without
temporaries, which only code generation makes. -/
def Expr.WellTyped : Expr → Prop
  | .id _ => True
  | .temp _ _ => False
  | .const _ => True
  | .arith _ x y => x.WellTyped ∧ y.WellTyped ∧
      Ty.numeric x.type = true ∧ Ty.numeric y.type = true
  | .unary x => x.WellTyped ∧ Ty.numeric x.type = true
  | .access _ i _ => i.WellTyped ∧ Ty.numeric i.type = true
  | .or x y => x.WellTyped ∧ y.WellTyped ∧
      x.type = some .bool ∧ y.type = some .bool
  | .and x y => x.WellTyped ∧ y.WellTyped ∧
      x.type = some .bool ∧ y.type = some .bool
  | .not x => x.WellTyped ∧ x.type = some .bool
  | .rel _ x y => x.WellTyped ∧ y.WellTyped ∧ relCheck x.type y.type ≠ none

def Stmt.WellTyped : Stmt → Prop
  | .null => True
  | .set id x => x.WellTyped ∧ setCheck (some id.type) x.type ≠ none
  | .setElem _ i x =>
      i.WellTyped ∧ Ty.numeric i.type = true ∧ x.WellTyped ∧ x.type ≠ none
  | .if x s => x.WellTyped ∧ x.type = some .bool ∧ s.WellTyped
  | .else x s1 s2 =>
      x.WellTyped ∧ x.type = some .bool ∧ s1.WellTyped ∧ s2.WellTyped
  | .while _ x s => x.WellTyped ∧ x.type = some .bool ∧ s.WellTyped
  | .do _ s x => x.WellTyped ∧ x.type = some .bool ∧ s.WellTyped
  | .break _ => True
  | .continue _ => True
  | .seq s1 s2 => s1.WellTyped ∧ s2.WellTyped

theorem newArith_ok {op : ArithOp} {x y z : Expr} (hx : x.WellTyped)
    (hy : y.WellTyped) (h : newArith op x y = .ok z) :
    z.WellTyped ∧ Ty.numeric z.type = true := by
  obtain ⟨rfl, ht⟩ := typed_ok.mp h
  have hnum := Ty.max_ne_none.mp ht
  exact ⟨⟨hx, hy, hnum.1, hnum.2⟩, Ty.max_numeric ht⟩

theorem newUnary_ok {x z : Expr} (hx : x.WellTyped)
    (h : newUnary x = .ok z) : z.WellTyped := by
  obtain ⟨rfl, ht⟩ := typed_ok.mp h
  exact ⟨hx, (Ty.max_ne_none.mp ht).2⟩

theorem newNot_ok {x z : Expr} (hx : x.WellTyped) (h : newNot x = .ok z) :
    z.WellTyped := by
  obtain ⟨rfl, ht⟩ := typed_ok.mp h
  exact ⟨hx, (logicalCheck_ne_none.mp ht).1⟩

theorem newRel_ok {op : RelOp} {x y z : Expr} (hx : x.WellTyped)
    (hy : y.WellTyped) (h : newRel op x y = .ok z) : z.WellTyped := by
  obtain ⟨rfl, ht⟩ := typed_ok.mp h
  exact ⟨hx, hy, ht⟩

theorem newBin_ok {op : BinOp} {x y z : Expr} (hx : x.WellTyped)
    (hy : y.WellTyped) (h : newBin op x y = .ok z) : z.WellTyped := by
  cases op with
  | or =>
      obtain ⟨rfl, ht⟩ := typed_ok.mp h
      exact ⟨hx, hy, logicalCheck_ne_none.mp ht⟩
  | and =>
      obtain ⟨rfl, ht⟩ := typed_ok.mp h
      exact ⟨hx, hy, logicalCheck_ne_none.mp ht⟩
  | rel op => exact newRel_ok hx hy h
  | arith op => exact (newArith_ok hx hy h).1

/-- One subscript of a location. -/
theorem scale_wellTyped {i t1 : Expr} {type type' : Ty} (hi : i.WellTyped)
    (h : scale i type = .ok (t1, type')) :
    t1.WellTyped ∧ Ty.numeric t1.type = true := by
  obtain ⟨size, -, hn⟩ := scale_ok.mp h
  have hc : Expr.WellTyped (.const (.num type'.width)) := trivial
  exact newArith_ok hi hc hn

/-! ## The actions of expressions -/

/-- What running the actions of an expression leaves alone. -/
structure SameScope (e e' : Sem) : Prop where
  top : e'.top = e.top
  enclosing : e'.enclosing = e.enclosing
  loops : e'.loops = e.loops

theorem SameScope.refl (e : Sem) : SameScope e e := ⟨rfl, rfl, rfl⟩

theorem SameScope.trans {e e' e'' : Sem} (h : SameScope e e')
    (h' : SameScope e' e'') : SameScope e e'' :=
  ⟨h'.top.trans h.top, h'.enclosing.trans h.enclosing,
    h'.loops.trans h.loops⟩

theorem resolve_scope {w : Word} {e e' : Sem} {id : Id}
    (h : resolve w e = .ok (id, e')) : SameScope e e' := by
  rw [(resolve_ok.mp h).2]
  exact ⟨rfl, rfl, rfl⟩

theorem ETree.perform_wellTyped {k : Level} (t : ETree k) :
    ∀ {e e' : Sem} {x : Expr}, t.perform e = .ok (x, e') →
      x.WellTyped ∧ SameScope e e' := by
  induction t with
  | binary x tok op h y ihx ihy =>
      intro e e' z hz
      obtain ⟨x', y', e₁, hx, hy, hnew⟩ := perform_binary.mp hz
      obtain ⟨hwx, hsx⟩ := ihx hx
      obtain ⟨hwy, hsy⟩ := ihy hy
      exact ⟨newBin_ok hwx hwy hnew, hsx.trans hsy⟩
  | operand l x ih => intro e e' z hz; exact ih hz
  | relation x tok op h y ihx ihy =>
      intro e e' z hz
      obtain ⟨x', y', e₁, hx, hy, hnew⟩ := perform_relation.mp hz
      obtain ⟨hwx, hsx⟩ := ihx hx
      obtain ⟨hwy, hsy⟩ := ihy hy
      exact ⟨newRel_ok hwx hwy hnew, hsx.trans hsy⟩
  | plain x ih => intro e e' z hz; exact ih hz
  | minus x ih =>
      intro e e' z hz
      obtain ⟨x', hx, hnew⟩ := perform_minus.mp hz
      obtain ⟨hwx, hsx⟩ := ih hx
      exact ⟨newUnary_ok hwx hnew, hsx⟩
  | bang x ih =>
      intro e e' z hz
      obtain ⟨x', hx, hnew⟩ := perform_bang.mp hz
      obtain ⟨hwx, hsx⟩ := ih hx
      exact ⟨newNot_ok hwx hnew, hsx⟩
  | single x ih => intro e e' z hz; exact ih hz
  | paren x ih => intro e e' z hz; exact ih hz
  | num n => intro e e' z hz; cases hz; exact ⟨trivial, SameScope.refl e⟩
  | real r => intro e e' z hz; cases hz; exact ⟨trivial, SameScope.refl e⟩
  | true => intro e e' z hz; cases hz; exact ⟨trivial, SameScope.refl e⟩
  | false => intro e e' z hz; cases hz; exact ⟨trivial, SameScope.refl e⟩
  | var w =>
      intro e e' z hz
      obtain ⟨id, hres, rfl⟩ := perform_var.mp hz
      exact ⟨trivial, resolve_scope hres⟩
  | elem x ih => intro e e' z hz; exact ih hz
  | first w i ih =>
      intro e e' z hz
      obtain ⟨id, e₁, i', t1, type, hres, hi, hscale, rfl⟩ :=
        perform_first.mp hz
      obtain ⟨hwi, hsi⟩ := ih hi
      exact ⟨scale_wellTyped hwi hscale, (resolve_scope hres).trans hsi⟩
  | more x i ihx ihi =>
      intro e e' z hz
      obtain ⟨id, loc, type, e₁, i', t1, type', t2, hx, hi, hscale, hadd,
        rfl⟩ := perform_more.mp hz
      obtain ⟨hwx, hsx⟩ := ihx hx
      obtain ⟨hwi, hsi⟩ := ihi hi
      exact ⟨newArith_ok hwx.1 (scale_wellTyped hwi hscale).1 hadd,
        hsx.trans hsi⟩

/-! ## The actions of statements -/

/-- `break` and `continue` point to `cur`, the innermost loop around, and the
loops inside have numbers from `lo` on. -/
def Stmt.LoopsIn : Option Nat → Nat → Stmt → Prop
  | _, _, .null => True
  | _, _, .set _ _ => True
  | _, _, .setElem _ _ _ => True
  | cur, lo, .if _ s => s.LoopsIn cur lo
  | cur, lo, .else _ s1 s2 => s1.LoopsIn cur lo ∧ s2.LoopsIn cur lo
  | _, lo, .while l _ s => lo ≤ l ∧ s.LoopsIn (some l) (l + 1)
  | _, lo, .do l s _ => lo ≤ l ∧ s.LoopsIn (some l) (l + 1)
  | cur, _, .break l => cur = some l
  | cur, _, .continue l => cur = some l
  | cur, lo, .seq s1 s2 => s1.LoopsIn cur lo ∧ s2.LoopsIn cur lo

theorem Stmt.LoopsIn.mono {cur : Option Nat} {lo lo' : Nat} (hle : lo ≤ lo') :
    ∀ {s : Stmt}, s.LoopsIn cur lo' → s.LoopsIn cur lo := by
  intro s
  induction s with
  | null => exact id
  | set i x => exact id
  | setElem a i x => exact id
  | «if» x s ih => exact ih
  | «else» x s1 s2 ih1 ih2 => intro h; exact ⟨ih1 h.1, ih2 h.2⟩
  | «while» l x s ih => intro h; exact ⟨Nat.le_trans hle h.1, h.2⟩
  | «do» l s x ih => intro h; exact ⟨Nat.le_trans hle h.1, h.2⟩
  | «break» l => exact id
  | «continue» l => exact id
  | seq s1 s2 ih1 ih2 => intro h; exact ⟨ih1 h.1, ih2 h.2⟩

theorem declare_loops {w : Word} {p : Ty} {e e' : Sem} {u : Unit}
    (h : declare w p e = .ok (u, e')) :
    e'.enclosing = e.enclosing ∧ e'.loops = e.loops := by
  obtain ⟨table, prev, -, -, rfl⟩ := declare_ok.mp h
  exact ⟨rfl, rfl⟩

theorem performMore_loops {p : Ty} : ∀ (more : List (Sep × Word))
    {e e' : Sem} {u : Unit}, performMore p more e = .ok (u, e') →
    e'.enclosing = e.enclosing ∧ e'.loops = e.loops := by
  intro more
  induction more with
  | nil => intro e e' u h; cases h; exact ⟨rfl, rfl⟩
  | cons q more ih =>
      intro e e' u h
      obtain ⟨sep, w⟩ := q
      obtain ⟨e₁, hd, hm⟩ := performMore_cons.mp h
      obtain ⟨he, hl⟩ := declare_loops hd
      obtain ⟨he', hl'⟩ := ih hm
      cases sep <;> exact ⟨he'.trans he, hl'.trans hl⟩

theorem performDecls_loops : ∀ (ds : List Decl) {e e' : Sem} {u : Unit},
    performDecls ds e = .ok (u, e') →
    e'.enclosing = e.enclosing ∧ e'.loops = e.loops := by
  intro ds
  induction ds with
  | nil => intro e e' u h; cases h; exact ⟨rfl, rfl⟩
  | cons d ds ih =>
      intro e e' u h
      obtain ⟨e₁, e₂, hf, hm, hds⟩ := performDecls_cons.mp h
      obtain ⟨he₁, hl₁⟩ := declare_loops hf
      obtain ⟨he₂, hl₂⟩ := performMore_loops _ hm
      obtain ⟨he', hl'⟩ := ih hds
      exact ⟨he'.trans (he₂.trans he₁), hl'.trans (hl₂.trans hl₁)⟩

/-- What running the actions of a statement makes, and leaves alone. -/
structure Built (e e' : Sem) (s : Stmt) : Prop where
  wellTyped : s.WellTyped
  loopsIn : s.LoopsIn e.enclosing e.loops
  enclosing : e'.enclosing = e.enclosing
  loops : e.loops ≤ e'.loops

theorem STree.perform_built {k : SKind} (t : STree k) :
    ∀ {e e' : Sem} {s : Stmt}, t.perform e = .ok (s, e') → Built e e' s := by
  induction t with
  | empty =>
      intro e e' s h
      cases h
      exact ⟨trivial, trivial, rfl, Nat.le_refl _⟩
  | ifThen c b ih =>
      intro e e' s h
      obtain ⟨x, e₁, y, hx, hy, hbool, rfl⟩ := perform_ifThen.mp h
      obtain ⟨hwx, hsx⟩ := c.perform_wellTyped hx
      have hb := ih hy
      have hin := hb.loopsIn
      rw [hsx.enclosing, hsx.loops] at hin
      exact ⟨⟨hwx, hbool, hb.wellTyped⟩, hin, hb.enclosing.trans hsx.enclosing,
        hsx.loops ▸ hb.loops⟩
  | ifElse c b1 b2 ih1 ih2 =>
      intro e e' s h
      obtain ⟨x, e₁, y, e₂, z, hx, hy, hz, hbool, rfl⟩ := perform_ifElse.mp h
      obtain ⟨hwx, hsx⟩ := c.perform_wellTyped hx
      have hb1 := ih1 hy
      have hb2 := ih2 hz
      have hin1 := hb1.loopsIn
      have hin2 := hb2.loopsIn
      have hle := hb1.loops
      rw [hsx.enclosing, hsx.loops] at hin1
      rw [hb1.enclosing, hsx.enclosing] at hin2
      rw [hsx.loops] at hle
      exact ⟨⟨hwx, hbool, hb1.wellTyped, hb2.wellTyped⟩,
        ⟨hin1, hin2.mono hle⟩,
        (hb2.enclosing.trans hb1.enclosing).trans hsx.enclosing,
        Nat.le_trans hle hb2.loops⟩
  | whileDo c b ih =>
      intro e e' s h
      obtain ⟨x, e₁, y, e₂, hx, hy, hbool, rfl, rfl⟩ := perform_whileDo.mp h
      obtain ⟨hwx, hsx⟩ := c.perform_wellTyped hx
      have hb := ih hy
      have hin := hb.loopsIn
      have hle := hb.loops
      rw [hsx.enclosing, hsx.loops] at hin
      rw [hsx.loops] at hle
      exact ⟨⟨hwx, hbool, hb.wellTyped⟩, ⟨Nat.le_refl _, hin⟩, rfl,
        Nat.le_of_succ_le hle⟩
  | doWhile b c ih =>
      intro e e' s h
      obtain ⟨y, e₁, x, e₂, hy, hx, hbool, rfl, rfl⟩ := perform_doWhile.mp h
      obtain ⟨hwx, hsx⟩ := c.perform_wellTyped hx
      have hb := ih hy
      have hle := hb.loops
      rw [← hsx.loops] at hle
      exact ⟨⟨hwx, hbool, hb.wellTyped⟩, ⟨Nat.le_refl _, hb.loopsIn⟩, rfl,
        Nat.le_of_succ_le hle⟩
  | «break» =>
      intro e e' s h
      obtain ⟨l, hl, rfl, rfl⟩ := makeBreak_ok.mp h
      exact ⟨trivial, hl, rfl, Nat.le_refl _⟩
  | «continue» =>
      intro e e' s h
      obtain ⟨l, hl, rfl, rfl⟩ := makeContinue_ok.mp h
      exact ⟨trivial, hl, rfl, Nat.le_refl _⟩
  | block b ih =>
      intro e e' s h
      obtain ⟨e₁, hs, rfl⟩ := perform_block.mp h
      have hb := ih hs
      exact ⟨hb.wellTyped, hb.loopsIn, hb.enclosing, hb.loops⟩
  | assign w x =>
      intro e e' s h
      obtain ⟨id, e₁, y, hres, hy, hc, rfl⟩ := perform_assign.mp h
      have hsr := resolve_scope hres
      obtain ⟨hwy, hsy⟩ := x.perform_wellTyped hy
      exact ⟨⟨hwy, hc⟩, trivial, hsy.enclosing.trans hsr.enclosing,
        Nat.le_of_eq (hsy.loops.trans hsr.loops).symm⟩
  | assignElem loc x =>
      intro e e' s h
      obtain ⟨id, i, type, e₁, y, hloc, hy, hc, rfl⟩ :=
        perform_assignElem.mp h
      obtain ⟨hwl, hsl⟩ := loc.perform_wellTyped hloc
      obtain ⟨hwy, hsy⟩ := x.perform_wellTyped hy
      have hty : y.type ≠ none := by
        intro hn
        rw [hn, setElemCheck] at hc
        simp at hc
      exact ⟨⟨hwl.1, hwl.2, hwy, hty⟩, trivial,
        hsy.enclosing.trans hsl.enclosing,
        Nat.le_of_eq (hsy.loops.trans hsl.loops).symm⟩
  | done ds =>
      intro e e' s h
      obtain ⟨hd, rfl⟩ := perform_done.mp h
      obtain ⟨he, hl⟩ := performDecls_loops ds hd
      exact ⟨trivial, trivial, he, Nat.le_of_eq hl.symm⟩
  | cons ds b rest ihb ihr =>
      intro e e' s h
      obtain ⟨e₁, y, e₂, z, hd, hy, hz, rfl⟩ := perform_cons.mp h
      obtain ⟨he, hl⟩ := performDecls_loops ds hd
      have hb := ihb hy
      have hr := ihr hz
      have hin := hb.loopsIn
      have hin' := hr.loopsIn
      have hle := hb.loops
      rw [he, hl] at hin
      rw [hb.enclosing, he] at hin'
      rw [hl] at hle
      exact ⟨⟨hb.wellTyped, hr.wellTyped⟩, ⟨hin, hin'.mono hle⟩,
        (hr.enclosing.trans hb.enclosing).trans he,
        Nat.le_trans hle hr.loops⟩

/-- The tree of an accepted program. -/
theorem program_built {toks : List Token} {o : Output}
    (h : program toks = .ok o) :
    o.stmt.WellTyped ∧ o.stmt.LoopsIn none 0 ∧
      genProgram o.stmt GState.init = .ok ((o.begin, o.after), o.gen) := by
  obtain ⟨b, rest, sem, -, hp, -, hg⟩ := program_sound h
  have hb := (STree.block b).perform_built hp
  exact ⟨hb.wellTyped, hb.loopsIn, hg⟩

end LearningLinux.FrontEnd
