import LearningLinux.FrontEnd.Accepted

/-!
# A rule for what the actions do

Running the actions of a tree is running `resolve`, `declare` and the few
others in some order, with blocks and loops properly nested. So a relation
between the states before and after that each of them satisfies, and that
composes, holds for every tree and every accepted program (`ActRel`).
-/

namespace LearningLinux.FrontEnd

open Lib

structure ActRel (R : Sem → Sem → Prop) : Prop where
  refl : ∀ e, R e e
  trans : ∀ {e e' e''}, R e e' → R e' e'' → R e e''
  resolve : ∀ {w e id e'}, resolve w e = .ok (id, e') → R e e'
  declare : ∀ {w p e u e'}, declare w p e = .ok (u, e') → R e e'
  assignSep : ∀ e, R e { e with log := .assignSep :: e.log }
  block : ∀ {e e'}, R e.opened e' → R e (e.closed e')
  loop : ∀ {e e'}, R e.entered e' → R e { e' with enclosing := e.enclosing }

variable {R : Sem → Sem → Prop}

theorem ETree.perform_rel (hR : ActRel R) {k : Level} (t : ETree k) :
    ∀ {e e' : Sem} {x : Expr}, t.perform e = .ok (x, e') → R e e' := by
  induction t with
  | binary x tok op h y ihx ihy =>
      intro e e' z hz
      obtain ⟨x', y', e₁, hx, hy, -⟩ := perform_binary.mp hz
      exact hR.trans (ihx hx) (ihy hy)
  | operand l x ih => intro e e' z hz; exact ih hz
  | relation x tok op h y ihx ihy =>
      intro e e' z hz
      obtain ⟨x', y', e₁, hx, hy, -⟩ := perform_relation.mp hz
      exact hR.trans (ihx hx) (ihy hy)
  | plain x ih => intro e e' z hz; exact ih hz
  | minus x ih =>
      intro e e' z hz
      obtain ⟨x', hx, -⟩ := perform_minus.mp hz
      exact ih hx
  | bang x ih =>
      intro e e' z hz
      obtain ⟨x', hx, -⟩ := perform_bang.mp hz
      exact ih hx
  | single x ih => intro e e' z hz; exact ih hz
  | paren x ih => intro e e' z hz; exact ih hz
  | num n => intro e e' z hz; cases hz; exact hR.refl e
  | real r => intro e e' z hz; cases hz; exact hR.refl e
  | true => intro e e' z hz; cases hz; exact hR.refl e
  | false => intro e e' z hz; cases hz; exact hR.refl e
  | var w =>
      intro e e' z hz
      obtain ⟨id, hres, -⟩ := perform_var.mp hz
      exact hR.resolve hres
  | elem x ih => intro e e' z hz; exact ih hz
  | first w i ih =>
      intro e e' z hz
      obtain ⟨id, e₁, i', t1, type, hres, hi, -, -⟩ := perform_first.mp hz
      exact hR.trans (hR.resolve hres) (ih hi)
  | more x i ihx ihi =>
      intro e e' z hz
      obtain ⟨id, loc, type, e₁, i', t1, type', t2, hx, hi, -, -, -⟩ :=
        perform_more.mp hz
      exact hR.trans (ihx hx) (ihi hi)

theorem performMore_rel (hR : ActRel R) {p : Ty} :
    ∀ (more : List (Sep × Word)) {e e' : Sem} {u : Unit},
      performMore p more e = .ok (u, e') → R e e' := by
  intro more
  induction more with
  | nil => intro e e' u h; cases h; exact hR.refl e
  | cons q more ih =>
      intro e e' u h
      obtain ⟨sep, w⟩ := q
      obtain ⟨e₁, hd, hm⟩ := performMore_cons.mp h
      have hsep : R e (e.separated sep) := by
        cases sep with
        | comma => exact hR.refl e
        | assign => exact hR.assignSep e
      exact hR.trans hsep (hR.trans (hR.declare hd) (ih hm))

theorem performDecls_rel (hR : ActRel R) : ∀ (ds : List Decl) {e e' : Sem}
    {u : Unit}, performDecls ds e = .ok (u, e') → R e e' := by
  intro ds
  induction ds with
  | nil => intro e e' u h; cases h; exact hR.refl e
  | cons d ds ih =>
      intro e e' u h
      obtain ⟨e₁, e₂, hf, hm, hds⟩ := performDecls_cons.mp h
      exact hR.trans (hR.trans (hR.declare hf) (performMore_rel hR _ hm))
        (ih hds)

theorem STree.perform_rel (hR : ActRel R) {k : SKind} (t : STree k) :
    ∀ {e e' : Sem} {s : Stmt}, t.perform e = .ok (s, e') → R e e' := by
  induction t with
  | empty => intro e e' s h; cases h; exact hR.refl e
  | ifThen c b ih =>
      intro e e' s h
      obtain ⟨x, e₁, y, hx, hy, -, -⟩ := perform_ifThen.mp h
      exact hR.trans (c.perform_rel hR hx) (ih hy)
  | ifElse c b1 b2 ih1 ih2 =>
      intro e e' s h
      obtain ⟨x, e₁, y, e₂, z, hx, hy, hz, -, -⟩ := perform_ifElse.mp h
      exact hR.trans (c.perform_rel hR hx) (hR.trans (ih1 hy) (ih2 hz))
  | whileDo c b ih =>
      intro e e' s h
      obtain ⟨x, e₁, y, e₂, hx, hy, -, -, rfl⟩ := perform_whileDo.mp h
      exact hR.loop (hR.trans (c.perform_rel hR hx) (ih hy))
  | doWhile b c ih =>
      intro e e' s h
      obtain ⟨y, e₁, x, e₂, hy, hx, -, -, rfl⟩ := perform_doWhile.mp h
      exact hR.loop (hR.trans (ih hy) (c.perform_rel hR hx))
  | «break» =>
      intro e e' s h
      obtain ⟨l, -, -, rfl⟩ := makeBreak_ok.mp h
      exact hR.refl e'
  | «continue» =>
      intro e e' s h
      obtain ⟨l, -, -, rfl⟩ := makeContinue_ok.mp h
      exact hR.refl e'
  | block b ih =>
      intro e e' s h
      obtain ⟨e₁, hs, rfl⟩ := perform_block.mp h
      exact hR.block (ih hs)
  | assign w x =>
      intro e e' s h
      obtain ⟨id, e₁, y, hres, hy, -, -⟩ := perform_assign.mp h
      exact hR.trans (hR.resolve hres) (x.perform_rel hR hy)
  | assignElem loc x =>
      intro e e' s h
      obtain ⟨id, i, type, e₁, y, hloc, hy, -, -⟩ := perform_assignElem.mp h
      exact hR.trans (loc.perform_rel hR hloc) (x.perform_rel hR hy)
  | done ds =>
      intro e e' s h
      obtain ⟨hd, -⟩ := perform_done.mp h
      exact performDecls_rel hR ds hd
  | cons ds b rest ihb ihr =>
      intro e e' s h
      obtain ⟨e₁, y, e₂, z, hd, hy, hz, -⟩ := perform_cons.mp h
      exact hR.trans (performDecls_rel hR ds hd) (hR.trans (ihb hy) (ihr hz))

/-- What the actions of a whole program have done. -/
theorem program_rel (hR : ActRel R) {toks : List Token} {o : Output}
    (h : program toks = .ok o) : ∃ e, o.log = e.log ∧ R Sem.init e := by
  obtain ⟨b, rest, sem, -, hp, hlog, -⟩ := program_sound h
  exact ⟨sem, hlog, (STree.block b).perform_rel hR hp⟩

end LearningLinux.FrontEnd
