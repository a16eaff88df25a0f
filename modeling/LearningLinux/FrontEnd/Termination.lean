import LearningLinux.FrontEnd.Scanning
import LearningLinux.FrontEnd.Fragment

/-!
# The front end halts

The fuel of the parser's methods is bookkeeping: from `10` units a token on,
and a few for the level of the method, none of them runs out of it. A method
that goes down a level pays with the level; every other call or iteration
comes after a token. At the end of the input there are no tokens left to pay
with, and there none is needed, because no loop goes on and no recursion is
entered on the token that stands for it.

That a method which has returned has consumed a token is read off the tree it
has built (`ParserSound`), and that the lexer's loops stop is in `Scanning`.
-/

namespace LearningLinux.FrontEnd

open Lib

/-! ## Methods that do not run out -/

section Finishes

variable {α β : Type} {s : PState}

def Finishes (p : P α) (s : PState) : Prop := p s ≠ .error .outOfFuel

theorem Finishes.bind {x : P α} {f : α → P β} (hx : Finishes x s)
    (hf : ∀ a s', x s = .ok (a, s') → Finishes (f a) s') :
    Finishes (x >>= f) s := by
  rw [Finishes]
  cases h : x s with
  | error e =>
      have hbind : (x >>= f) s = .error e := by
        show (x s >>= fun p => f p.1 p.2) = _
        rw [h]
        rfl
      rw [hbind]
      intro he
      cases he
      exact hx h
  | ok p =>
      rw [bind_run h]
      exact hf p.1 p.2 h

theorem finishes_pure {a : α} : Finishes (pure a) s := nofun

theorem finishes_move : Finishes move s := nofun

theorem finishes_syntaxError : Finishes (syntaxError : P α) s := by
  intro h
  cases h

theorem finishes_look {f : Token → P β}
    (h : Finishes (f (s.toks.headD Token.eof)) s) :
    Finishes (look >>= f) s := h

theorem finishes_then_move {f : Unit → P β}
    (h : Finishes (f ()) ⟨s.toks.tail, s.sem⟩) :
    Finishes (move >>= f) s := h

theorem finishes_matchTok {t : Token} : Finishes (matchTok t) s := by
  rw [matchTok]
  refine finishes_look ?_
  split
  · exact finishes_move
  · exact finishes_syntaxError

theorem finishes_matchTag {data : Token → Option α} :
    Finishes (matchTag data) s := by
  rw [matchTag]
  refine finishes_look ?_
  cases data (s.toks.headD Token.eof) with
  | none => exact finishes_syntaxError
  | some a =>
      intro h
      cases h

theorem finishes_act {x : Act α} (h : ∀ e, x e ≠ .error .outOfFuel) :
    Finishes (act x) s := by
  rw [Finishes, act]
  cases hx : x s.sem with
  | error e =>
      intro he
      cases he
      exact h s.sem hx
  | ok p => simp

theorem lift_ne {x : Except Err α} (h : x ≠ .error .outOfFuel) (e : Sem) :
    lift x e ≠ .error .outOfFuel := by
  cases x with
  | error err =>
      intro he
      cases he
      exact h rfl
  | ok a => nofun

theorem finishes_lift {x : Except Err α} (h : x ≠ .error .outOfFuel) :
    Finishes (act (lift x)) s :=
  finishes_act (lift_ne h)

/-- An action that never throws. -/
theorem finishes_total {x : Act α} (h : ∀ e, ∃ p, x e = .ok p) :
    Finishes (act x) s := by
  refine finishes_act fun e he => ?_
  obtain ⟨p, hp⟩ := h e
  rw [hp] at he
  cases he

end Finishes

/-! ### The actions throw nothing but errors of the program -/

theorem typed_ne (x : Expr) : typed x ≠ .error .outOfFuel := by
  rw [typed]
  split <;> simp

theorem newBin_ne (op : BinOp) (x y : Expr) :
    newBin op x y ≠ .error .outOfFuel := by
  cases op <;> exact typed_ne _

theorem scale_ne (i : Expr) (type : Ty) :
    scale i type ≠ .error .outOfFuel := by
  cases type with
  | basic b => nofun
  | array n of =>
      rw [scale]
      have h := typed_ne (.arith .mul i (.const (.num of.width)))
      rw [newArith]
      cases ht : typed (.arith .mul i (.const (.num of.width))) with
      | error e =>
          intro he
          cases he
          exact h ht
      | ok z =>
          intro hz
          cases hz

theorem resolve_ne (w : Word) (e : Sem) :
    resolve w e ≠ .error .outOfFuel := by
  rw [resolve]
  cases e.top.get w <;> simp

theorem declare_ne (w : Word) (p : Ty) (e : Sem) :
    declare w p e ≠ .error .outOfFuel := by
  rw [declare]
  cases e.top with
  | nil => simp
  | cons table prev =>
      dsimp only
      split <;> simp

theorem condition_ne (x : Expr) (message : String) (s : Stmt) :
    (condition x message >>= fun _ => Except.ok s) ≠ .error .outOfFuel := by
  rw [condition]
  split
  all_goals
    intro h
    cases h

theorem newSet_ne (i : Id) (x : Expr) : newSet i x ≠ .error .outOfFuel := by
  rw [newSet]
  split <;> simp

theorem newSetElem_ne (a : Id) (i : Expr) (type : Ty) (y : Expr) :
    newSetElem a i type y ≠ .error .outOfFuel := by
  rw [newSetElem]
  split <;> simp

theorem makeBreak_ne (e : Sem) : makeBreak e ≠ .error .outOfFuel := by
  rw [makeBreak]
  cases e.enclosing
  all_goals
    intro h
    cases h

theorem makeContinue_ne (e : Sem) : makeContinue e ≠ .error .outOfFuel := by
  rw [makeContinue]
  cases e.enclosing
  all_goals
    intro h
    cases h

/-! ## Parsing takes tokens -/

theorem SoundAt.shorter {k : Level} {f : P Expr} (hf : SoundAt k f)
    {s s' : PState} {x : Expr} (h : f s = .ok (x, s')) :
    s'.toks.length < s.toks.length := by
  obtain ⟨t, ht, -⟩ := hf h
  have hpos := t.yield_pos
  rw [ht, List.length_append]
  omega

theorem SoundStmt.shorter {f : P Stmt} (hf : SoundStmt .stmt f)
    {s s' : PState} {x : Stmt} (h : f s = .ok (x, s')) :
    s'.toks.length < s.toks.length := by
  obtain ⟨t, ht, -⟩ := hf h
  have hpos := t.yield_pos
  rw [ht, List.length_append]
  omega

theorem matchTok_shorter {t : Token} (ht : t ≠ Token.eof) {s s' : PState}
    {u : Unit} (h : matchTok t s = .ok (u, s')) :
    s'.toks.length + 1 = s.toks.length := by
  rw [((matchTok_ok ht).mp h).1, List.length_cons]

theorem tail_shorter {s : PState} {t : Token}
    (h : s.toks.headD Token.eof = t) (ht : t ≠ Token.eof) :
    s.toks.tail.length + 1 = s.toks.length := by
  rw [toks_of_look h ht, List.length_cons, List.tail_cons]

/-! ## Expressions -/

theorem binLoop_finishes {l : BinLevel} {operand : P Expr} {n : Nat}
    (hs : SoundAt l.operand operand)
    (ho : ∀ s : PState, s.toks.length ≤ n → Finishes operand s) :
    ∀ (fuel : Nat) {x : Expr} {s : PState}, s.toks.length < fuel →
      s.toks.length ≤ n → Finishes (binLoop l operand fuel x) s := by
  intro fuel
  induction fuel with
  | zero => intro x s hfuel; omega
  | succ fuel ih =>
      intro x s hfuel hle
      rw [binLoop]
      refine finishes_look ?_
      cases hop : l.op (s.toks.headD Token.eof) with
      | none => exact finishes_pure
      | some op =>
          have htail := tail_shorter rfl (BinLevel.op_ne_eof hop)
          refine finishes_then_move (Finishes.bind
            (ho ⟨s.toks.tail, s.sem⟩ ?_) fun y s₁ hy => ?_)
          · show s.toks.tail.length ≤ n
            omega
          have hlt : s₁.toks.length < s.toks.tail.length :=
            SoundAt.shorter @hs hy
          refine (finishes_lift (newBin_ne op x y)).bind fun x' s₂ hx => ?_
          obtain ⟨-, rfl⟩ := actLift_ok.mp hx
          exact ih (by omega) (by omega)

theorem binary_finishes {l : BinLevel} {operand : P Expr}
    (hs : SoundAt l.operand operand) {s : PState} {fuel : Nat}
    (ho : ∀ s' : PState, s'.toks.length ≤ s.toks.length →
      Finishes operand s') (hfuel : s.toks.length ≤ fuel) :
    Finishes (binary l operand fuel) s := by
  rw [binary]
  refine (ho s (Nat.le_refl _)).bind fun x s₁ hx => ?_
  have hlt := SoundAt.shorter @hs hx
  exact binLoop_finishes hs ho fuel (by omega) (by omega)

/-- One subscript, on tokens for which the index finishes. -/
theorem subscript_finishes {b : P Expr} {s : PState} {type : Ty}
    (hb : ∀ s' : PState, s'.toks.length < s.toks.length → Finishes b s') :
    Finishes (subscript b type) s := by
  rw [subscript]
  refine finishes_matchTok.bind fun _ s₁ h₁ => ?_
  have hlen := matchTok_shorter (by decide) h₁
  refine (hb s₁ (by omega)).bind fun i s₂ h₂ => ?_
  exact finishes_matchTok.bind fun _ s₃ _ => finishes_lift (scale_ne i type)

theorem subscript_shorter {b : P Expr} (hb : SoundAt (.bin .bool) b)
    {type : Ty} {r : Expr × Ty} {s s' : PState}
    (h : subscript b type s = .ok (r, s')) :
    s'.toks.length < s.toks.length := by
  obtain ⟨t1, type'⟩ := r
  obtain ⟨i, x, htoks, -, -⟩ := subscript_sound hb h
  rw [htoks]
  simp only [List.length_cons, List.length_append]
  omega

theorem offsetLoop_shorter {b : P Expr} (hb : SoundAt (.bin .bool) b) :
    ∀ (fuel : Nat) {loc : Expr} {type : Ty} {r : Expr × Ty} {s s' : PState},
      offsetLoop b fuel loc type s = .ok (r, s') →
      s'.toks.length ≤ s.toks.length := by
  intro fuel
  induction fuel with
  | zero => intro loc type r s s' h; cases h
  | succ fuel ih =>
      intro loc type r s s' h
      rw [offsetLoop, look_bind] at h
      split at h
      · obtain ⟨p, s₁, hsub, h₁⟩ := bind_ok.mp h
        have hlt := subscript_shorter hb hsub
        obtain ⟨t2, s₂, hadd, h₂⟩ := bind_ok.mp h₁
        obtain ⟨-, rfl⟩ := actLift_ok.mp hadd
        have hle := ih h₂
        omega
      · cases h
        exact Nat.le_refl _

theorem offset_shorter {fuel : Nat} {a : Id} {r : Expr × Ty} {s s' : PState}
    (h : offset fuel a s = .ok (r, s')) :
    s'.toks.length < s.toks.length := by
  cases fuel with
  | zero => cases h
  | succ fuel =>
      rw [offset, bind_ok] at h
      obtain ⟨p, s₁, hsub, h₁⟩ := h
      have hlt := subscript_shorter (exprSound fuel).bool hsub
      have hle := offsetLoop_shorter (exprSound fuel).bool fuel h₁
      omega

theorem offsetLoop_finishes {b : P Expr} (hs : SoundAt (.bin .bool) b)
    {n : Nat} (hb : ∀ s : PState, s.toks.length < n → Finishes b s) :
    ∀ (fuel : Nat) {loc : Expr} {type : Ty} {s : PState},
      s.toks.length < fuel → s.toks.length ≤ n →
      Finishes (offsetLoop b fuel loc type) s := by
  intro fuel
  induction fuel with
  | zero => intro loc type s hfuel; omega
  | succ fuel ih =>
      intro loc type s hfuel hle
      rw [offsetLoop]
      refine finishes_look ?_
      split
      · refine (subscript_finishes fun s' hlt => hb s' (by omega)).bind
          fun r s₁ hr => ?_
        have hlt := subscript_shorter hs hr
        refine (finishes_lift (typed_ne _)).bind fun t2 s₂ h₂ => ?_
        obtain ⟨-, rfl⟩ := actLift_ok.mp h₂
        exact ih (by omega) (by omega)
      · exact finishes_pure

/-- So much fuel is enough for the methods of expressions. -/
structure ExprFinishes (fuel : Nat) : Prop where
  bool : ∀ s : PState, 10 * s.toks.length + 8 ≤ fuel →
    Finishes (bool fuel) s
  join : ∀ s : PState, 10 * s.toks.length + 7 ≤ fuel →
    Finishes (join fuel) s
  equality : ∀ s : PState, 10 * s.toks.length + 6 ≤ fuel →
    Finishes (equality fuel) s
  rel : ∀ s : PState, 10 * s.toks.length + 5 ≤ fuel →
    Finishes (rel fuel) s
  expr : ∀ s : PState, 10 * s.toks.length + 4 ≤ fuel →
    Finishes (expr fuel) s
  term : ∀ s : PState, 10 * s.toks.length + 3 ≤ fuel →
    Finishes (term fuel) s
  unary : ∀ s : PState, 10 * s.toks.length + 2 ≤ fuel →
    Finishes (unary fuel) s
  factor : ∀ s : PState, 10 * s.toks.length + 1 ≤ fuel →
    Finishes (factor fuel) s
  offset : ∀ (s : PState) (a : Id), 10 * s.toks.length + 9 ≤ fuel →
    Finishes (offset fuel a) s

theorem rel_finishes {fuel : Nat} (ih : ExprFinishes fuel) (s : PState)
    (h : 10 * s.toks.length + 5 ≤ fuel + 1) :
    Finishes (rel (fuel + 1)) s := by
  rw [rel]
  refine (ih.expr s (by omega)).bind fun x s₁ hx => ?_
  have hlt := SoundAt.shorter (exprSound fuel).expr hx
  refine finishes_look ?_
  cases hop : relOp (s₁.toks.headD Token.eof) with
  | none => exact finishes_pure
  | some op =>
      have htail := tail_shorter rfl (relOp_ne_eof hop)
      refine finishes_then_move ((ih.expr _ ?_).bind fun y s₂ _ => ?_)
      · show 10 * s₁.toks.tail.length + 4 ≤ fuel
        omega
      · exact finishes_lift (typed_ne _)

theorem unary_finishes {fuel : Nat} (ih : ExprFinishes fuel) (s : PState)
    (h : 10 * s.toks.length + 2 ≤ fuel + 1) :
    Finishes (unary (fuel + 1)) s := by
  rw [unary]
  refine finishes_look ?_
  split
  · next hminus =>
      have htail := tail_shorter hminus (by decide)
      refine finishes_then_move ((ih.unary _ ?_).bind fun x s₁ _ => ?_)
      · show 10 * s.toks.tail.length + 2 ≤ fuel
        omega
      · exact finishes_lift (typed_ne _)
  · split
    · next hbang =>
        have htail := tail_shorter hbang (by decide)
        refine finishes_then_move ((ih.unary _ ?_).bind fun x s₁ _ => ?_)
        · show 10 * s.toks.tail.length + 2 ≤ fuel
          omega
        · exact finishes_lift (typed_ne _)
    · exact ih.factor s (by omega)

theorem factor_finishes {fuel : Nat} (ih : ExprFinishes fuel) (s : PState)
    (h : 10 * s.toks.length + 1 ≤ fuel + 1) :
    Finishes (factor (fuel + 1)) s := by
  rw [factor_succ]
  refine finishes_look ?_
  cases hl : s.toks.headD Token.eof with
  | chr c =>
      dsimp only
      split
      · next hc =>
          have htail := tail_shorter hl (by rw [hc]; decide)
          refine finishes_then_move ((ih.bool _ ?_).bind fun x s₁ _ => ?_)
          · show 10 * s.toks.tail.length + 8 ≤ fuel
            omega
          · exact finishes_matchTok.bind fun _ _ _ => finishes_pure
      · exact finishes_syntaxError
  | num n => nofun
  | real r => nofun
  | true => nofun
  | false => nofun
  | id w =>
      have htail := tail_shorter hl nofun
      dsimp only
      refine (finishes_act (resolve_ne w)).bind fun id s₁ hres => ?_
      obtain ⟨sem, -, rfl⟩ := act_ok.mp hres
      refine finishes_then_move (finishes_look ?_)
      split
      · exact finishes_pure
      · refine (ih.offset _ id ?_).bind fun r s₂ _ => ?_
        · show 10 * s.toks.tail.length + 9 ≤ fuel
          omega
        · exact finishes_pure
  | _ => exact finishes_syntaxError

theorem offset_finishes {fuel : Nat} (ih : ExprFinishes fuel) (s : PState)
    (a : Id) (h : 10 * s.toks.length + 9 ≤ fuel + 1) :
    Finishes (offset (fuel + 1) a) s := by
  rw [offset]
  have hb : ∀ s' : PState, s'.toks.length < s.toks.length →
      Finishes (bool fuel) s' := fun s' hlt => ih.bool s' (by omega)
  refine (subscript_finishes hb).bind fun r s₁ hr => ?_
  have hlt := subscript_shorter (exprSound fuel).bool hr
  exact offsetLoop_finishes (exprSound fuel).bool hb fuel (by omega)
    (by omega)

theorem exprFinishes : ∀ fuel : Nat, ExprFinishes fuel := by
  intro fuel
  induction fuel with
  | zero => constructor <;> intros <;> omega
  | succ fuel ih =>
      have hs := exprSound fuel
      exact {
        bool := fun s h => binary_finishes hs.join
          (fun s' hle => ih.join s' (by omega)) (by omega)
        join := fun s h => binary_finishes hs.equality
          (fun s' hle => ih.equality s' (by omega)) (by omega)
        equality := fun s h => binary_finishes hs.rel
          (fun s' hle => ih.rel s' (by omega)) (by omega)
        rel := rel_finishes ih
        expr := fun s h => binary_finishes hs.term
          (fun s' hle => ih.term s' (by omega)) (by omega)
        term := fun s h => binary_finishes hs.unary
          (fun s' hle => ih.unary s' (by omega)) (by omega)
        unary := unary_finishes ih
        factor := factor_finishes ih
        offset := offset_finishes ih }

/-! ## Declarations -/

theorem type_shorter {fuel : Nat} {p : Ty} {s s' : PState}
    (h : type fuel s = .ok (p, s')) : s'.toks.length < s.toks.length := by
  obtain ⟨b, ds, htoks, -, -⟩ := type_sound h
  rw [htoks]
  simp only [List.length_cons, List.length_append]
  omega

theorem declarators_shorter {fuel : Nat} {p : Ty} {u : Unit} {s s' : PState}
    (h : declarators p fuel s = .ok (u, s')) :
    s'.toks.length < s.toks.length := by
  obtain ⟨w, more, sem, htoks, -, -⟩ := declarators_sound fuel h
  rw [htoks]
  simp only [List.length_cons, List.length_append]
  omega

theorem dims_finishes : ∀ (fuel : Nat) {p : Ty} {s : PState},
    s.toks.length < fuel → Finishes (dims fuel p) s := by
  intro fuel
  induction fuel with
  | zero => intro p s h; omega
  | succ fuel ih =>
      intro p s h
      rw [dims]
      refine finishes_matchTok.bind fun _ s₁ hopen => ?_
      have hlen := matchTok_shorter (by decide) hopen
      refine finishes_matchTag.bind fun n s₂ hnum => ?_
      have hnum' := congrArg List.length (matchNum_ok.mp hnum).1
      refine finishes_matchTok.bind fun _ s₃ hclose => finishes_look ?_
      have hlen' := matchTok_shorter (by decide) hclose
      rw [List.length_cons] at hnum'
      split
      · exact (ih (by omega)).bind fun _ _ _ => finishes_pure
      · exact finishes_pure

theorem type_finishes {fuel : Nat} {s : PState} (h : s.toks.length ≤ fuel) :
    Finishes (type fuel) s := by
  rw [type]
  refine finishes_matchTag.bind fun b s₁ hb => finishes_look ?_
  have hb' := congrArg List.length (matchBasic_ok.mp hb).1
  rw [List.length_cons] at hb'
  split
  · exact finishes_pure
  · exact dims_finishes fuel (by omega)

theorem declarators_finishes {p : Ty} : ∀ (fuel : Nat) {s : PState},
    s.toks.length < fuel → Finishes (declarators p fuel) s := by
  intro fuel
  induction fuel with
  | zero => intro s h; omega
  | succ fuel ih =>
      intro s h
      rw [declarators]
      refine finishes_matchTag.bind fun w s₁ hw => ?_
      have hw' := congrArg List.length (matchId_ok.mp hw).1
      rw [List.length_cons] at hw'
      refine (finishes_act (declare_ne w p)).bind fun _ s₂ hd => ?_
      obtain ⟨sem, -, rfl⟩ := act_ok.mp hd
      refine finishes_look ?_
      split
      · exact finishes_matchTok
      · split
        · refine finishes_matchTok.bind fun _ s₃ heq => ?_
          have hlen := matchTok_shorter (by decide) heq
          change s₃.toks.length + 1 = s₁.toks.length at hlen
          refine (finishes_total fun _ => ⟨_, rfl⟩).bind fun _ s₄ hrec => ?_
          obtain ⟨sem', -, rfl⟩ := act_ok.mp hrec
          refine ih ?_
          show s₃.toks.length < fuel
          omega
        · refine finishes_matchTok.bind fun _ s₃ hcomma => ih ?_
          have hlen := matchTok_shorter (by decide) hcomma
          change s₃.toks.length + 1 = s₁.toks.length at hlen
          omega

theorem decls_finishes : ∀ (fuel : Nat) {s : PState},
    s.toks.length < fuel → Finishes (decls fuel) s := by
  intro fuel
  induction fuel with
  | zero => intro s h; omega
  | succ fuel ih =>
      intro s h
      rw [decls]
      refine finishes_look ?_
      split
      · refine (type_finishes (by omega)).bind fun p s₁ hp => ?_
        have hlt := type_shorter hp
        refine (declarators_finishes fuel (by omega)).bind fun _ s₂ hd => ?_
        have hlt' := declarators_shorter hd
        exact ih (by omega)
      · exact finishes_pure

theorem declsIfAny_finishes {fuel : Nat} {s : PState}
    (h : s.toks.length < fuel) : Finishes (declsIfAny fuel) s := by
  rw [declsIfAny]
  refine finishes_look ?_
  split
  · exact decls_finishes fuel h
  · exact finishes_pure

theorem declsIfAny_shorter {fuel : Nat} {u : Unit} {s s' : PState}
    (h : declsIfAny fuel s = .ok (u, s')) :
    s'.toks.length ≤ s.toks.length := by
  rw [declsIfAny, look_bind] at h
  cases hl : s.toks.headD Token.eof with
  | basic b =>
      rw [hl] at h
      obtain ⟨ds, htoks, -⟩ := decls_sound fuel h
      rw [htoks]
      simp
  | _ =>
      rw [hl] at h
      cases h
      exact Nat.le_refl _

/-! ## Statements -/

theorem assignTo_finishes {fuel : Nat} {id : Id} {s : PState}
    (h : 10 * s.toks.length + 9 ≤ fuel) : Finishes (assignTo fuel id) s := by
  rw [assignTo]
  refine finishes_look ?_
  split
  · next heq =>
      have htail := tail_shorter heq (by decide)
      refine finishes_then_move (((exprFinishes fuel).bool _ ?_).bind
        fun x s₁ _ => finishes_lift (newSet_ne id x))
      show 10 * s.toks.tail.length + 8 ≤ fuel
      omega
  · refine ((exprFinishes fuel).offset s id h).bind fun r s₁ hr => ?_
    refine finishes_matchTok.bind fun _ s₂ heq => ?_
    have hlen := matchTok_shorter (by decide) heq
    have hle := offset_shorter hr
    refine ((exprFinishes fuel).bool s₂ (by omega)).bind fun y s₃ _ => ?_
    exact finishes_lift (newSetElem_ne _ _ _ _)

theorem assign_finishes {fuel : Nat} {s : PState}
    (h : 10 * s.toks.length ≤ fuel + 1) : Finishes (assign fuel) s := by
  rw [assign]
  refine finishes_matchTag.bind fun w s₁ hw => ?_
  have hw' := congrArg List.length (matchId_ok.mp hw).1
  rw [List.length_cons] at hw'
  refine (finishes_act (resolve_ne w)).bind fun id s₂ hres => ?_
  obtain ⟨sem, -, rfl⟩ := act_ok.mp hres
  refine Finishes.bind (assignTo_finishes ?_) fun st s₃ _ => ?_
  · show 10 * s₁.toks.length + 9 ≤ fuel
    omega
  · exact finishes_matchTok.bind fun _ _ _ => finishes_pure

theorem blockEnd_finishes {outer : Bool} {s : PState} :
    Finishes (blockEnd outer) s := by
  rw [blockEnd]
  split
  · refine finishes_look ?_
    split
    · exact finishes_syntaxError
    · exact finishes_pure
  · exact finishes_matchTok

/-- A condition in brackets, in front of what finishes on less. -/
theorem paren_finishes {β : Type} {fuel : Nat} {s : PState} {f : Expr → P β}
    (h : 10 * s.toks.length ≤ fuel + 2)
    (hf : ∀ (x : Expr) (s' : PState), s'.toks.length < s.toks.length →
      Finishes (f x) s') :
    Finishes (do
      matchTok (.chr '(')
      let x ← bool fuel
      matchTok (.chr ')')
      f x) s := by
  refine finishes_matchTok.bind fun _ s₁ hopen => ?_
  have hlen := matchTok_shorter (by decide) hopen
  refine ((exprFinishes fuel).bool s₁ (by omega)).bind fun x s₂ hx => ?_
  have hlt := SoundAt.shorter (exprSound fuel).bool hx
  refine finishes_matchTok.bind fun _ s₃ hclose => hf x s₃ ?_
  have hlen' := matchTok_shorter (by decide) hclose
  omega

section Cases

variable {fuel : Nat} {s : PState} {body : P Stmt}

theorem ifStmt_finishes (h : 10 * s.toks.length ≤ fuel + 1)
    (hs : SoundStmt .stmt body)
    (hb : ∀ s' : PState, s'.toks.length < s.toks.length →
      Finishes body s') : Finishes (ifStmt (bool fuel) body) s := by
  rw [ifStmt]
  refine finishes_matchTok.bind fun _ s₁ hif => ?_
  have hlen := matchTok_shorter (by decide) hif
  refine paren_finishes (by omega) fun x s₂ hlt => ?_
  refine (hb s₂ (by omega)).bind fun s1 s₃ h₃ => finishes_look ?_
  have hlt' := SoundStmt.shorter @hs h₃
  split
  · exact finishes_lift (condition_ne x _ _)
  · refine finishes_matchTok.bind fun _ s₄ helse => ?_
    have hlen' := matchTok_shorter (by decide) helse
    refine (hb s₄ (by omega)).bind fun s2 s₅ _ => ?_
    exact finishes_lift (condition_ne x _ _)

theorem whileStmt_finishes (h : 10 * s.toks.length ≤ fuel + 1)
    (hb : ∀ s' : PState, s'.toks.length < s.toks.length →
      Finishes body s') : Finishes (whileStmt (bool fuel) body) s := by
  rw [whileStmt]
  refine (finishes_total fun _ => ⟨_, rfl⟩).bind fun p s₁ henter => ?_
  obtain ⟨sem, -, rfl⟩ := act_ok.mp henter
  refine finishes_matchTok.bind fun _ s₂ hwhile => ?_
  have hlen := matchTok_shorter (by decide) hwhile
  change s₂.toks.length + 1 = s.toks.length at hlen
  refine paren_finishes (by omega) fun x s₃ hlt => ?_
  refine (hb s₃ (by omega)).bind fun s1 s₄ _ => ?_
  refine (finishes_lift (condition_ne x _ _)).bind fun r s₅ _ => ?_
  exact (finishes_total fun _ => ⟨_, rfl⟩).bind fun _ _ _ => finishes_pure

theorem doStmt_finishes (h : 10 * s.toks.length ≤ fuel + 1)
    (hs : SoundStmt .stmt body)
    (hb : ∀ s' : PState, s'.toks.length < s.toks.length →
      Finishes body s') : Finishes (doStmt (bool fuel) body) s := by
  rw [doStmt]
  refine (finishes_total fun _ => ⟨_, rfl⟩).bind fun p s₁ henter => ?_
  obtain ⟨sem, -, rfl⟩ := act_ok.mp henter
  refine finishes_matchTok.bind fun _ s₂ hdo => ?_
  have hlen := matchTok_shorter (by decide) hdo
  change s₂.toks.length + 1 = s.toks.length at hlen
  refine (hb s₂ (by omega)).bind fun s1 s₃ h₃ => ?_
  have hlt := SoundStmt.shorter @hs h₃
  refine finishes_matchTok.bind fun _ s₄ hwhile => ?_
  have hlen' := matchTok_shorter (by decide) hwhile
  refine paren_finishes (by omega) fun x s₅ _ => ?_
  refine finishes_matchTok.bind fun _ s₆ _ => ?_
  refine (finishes_lift (condition_ne x _ _)).bind fun r s₇ _ => ?_
  exact (finishes_total fun _ => ⟨_, rfl⟩).bind fun _ _ _ => finishes_pure

end Cases

/-- So much fuel is enough for the methods of statements. -/
structure StmtFinishes (fuel : Nat) : Prop where
  block : ∀ (outer : Bool) (s : PState), 10 * s.toks.length + 1 ≤ fuel →
    Finishes (block outer fuel) s
  stmts : ∀ s : PState, 10 * s.toks.length + 3 ≤ fuel →
    Finishes (stmts fuel) s
  stmt : ∀ s : PState, 10 * s.toks.length + 2 ≤ fuel →
    Finishes (stmt fuel) s

theorem block_finishes {fuel : Nat} (ih : StmtFinishes fuel) (outer : Bool)
    (s : PState) (h : 10 * s.toks.length + 1 ≤ fuel + 1) :
    Finishes (block outer (fuel + 1)) s := by
  rw [block]
  refine finishes_matchTok.bind fun _ s₁ hopen => ?_
  have hlen := matchTok_shorter (by decide) hopen
  refine (finishes_total fun _ => ⟨_, rfl⟩).bind fun saved s₂ henv => ?_
  obtain ⟨sem, -, rfl⟩ := act_ok.mp henv
  refine Finishes.bind (ih.stmts _ ?_) fun x s₃ _ => ?_
  · show 10 * s₁.toks.length + 3 ≤ fuel
    omega
  · refine blockEnd_finishes.bind fun _ s₄ _ => ?_
    exact (finishes_total fun _ => ⟨_, rfl⟩).bind fun _ _ _ => finishes_pure

theorem stmts_finishes {fuel : Nat} (ih : StmtFinishes fuel) (s : PState)
    (h : 10 * s.toks.length + 3 ≤ fuel + 1) :
    Finishes (stmts (fuel + 1)) s := by
  rw [stmts]
  refine (declsIfAny_finishes (by omega)).bind fun _ s₁ hds => ?_
  have hle := declsIfAny_shorter hds
  refine finishes_look ?_
  split
  · exact finishes_pure
  · refine (ih.stmt s₁ (by omega)).bind fun s1 s₂ h₁ => ?_
    have hlt := SoundStmt.shorter (stmtSound fuel).stmt h₁
    refine (ih.stmts s₂ (by omega)).bind fun s2 s₃ _ => ?_
    exact finishes_pure

theorem jump_finishes {tok : Token} {make : Act Stmt} {s : PState}
    (h : ∀ e, make e ≠ .error .outOfFuel) :
    Finishes (do matchTok tok; matchTok (.chr ';'); act make) s :=
  finishes_matchTok.bind fun _ _ _ => finishes_matchTok.bind fun _ _ _ =>
    finishes_act h

theorem stmt_finishes {fuel : Nat} (ih : StmtFinishes fuel) (s : PState)
    (h : 10 * s.toks.length + 2 ≤ fuel + 1) :
    Finishes (stmt (fuel + 1)) s := by
  have hs : SoundStmt .stmt (stmt fuel) := (stmtSound fuel).stmt
  have hlen : 10 * s.toks.length ≤ fuel + 1 := by omega
  have hstmt : ∀ s' : PState, s'.toks.length < s.toks.length →
      Finishes (stmt fuel) s' := fun s' hlt => ih.stmt s' (by omega)
  rw [stmt_succ]
  refine finishes_look ?_
  cases s.toks.headD Token.eof with
  | chr c =>
      dsimp only
      by_cases hsemi : c = ';'
      · rw [if_pos hsemi]
        nofun
      · rw [if_neg hsemi]
        by_cases hbrace : c = '{'
        · rw [if_pos hbrace]
          exact ih.block .false s (by omega)
        · rw [if_neg hbrace]
          exact assign_finishes hlen
  | «if» => exact ifStmt_finishes hlen @hs hstmt
  | «while» => exact whileStmt_finishes hlen hstmt
  | «do» => exact doStmt_finishes hlen @hs hstmt
  | «break» => exact jump_finishes makeBreak_ne
  | «continue» => exact jump_finishes makeContinue_ne
  | _ => exact assign_finishes hlen

theorem stmtFinishes : ∀ fuel : Nat, StmtFinishes fuel := by
  intro fuel
  induction fuel with
  | zero => constructor <;> intros <;> omega
  | succ fuel ih =>
      exact ⟨block_finishes ih, stmts_finishes ih, stmt_finishes ih⟩

/-! ## The program -/

/-- The block of a program never runs out of what `program` gives it. -/
theorem block_enough (toks : List Token) {fuel : Nat}
    (h : enoughFuel toks ≤ fuel) :
    Finishes (block true fuel) ⟨toks, Sem.init⟩ := by
  refine (stmtFinishes fuel).block .true _ ?_
  rw [enoughFuel] at h
  show 10 * toks.length + 1 ≤ fuel
  omega

/-- The code generator throws nothing for a block the parser has built. -/
theorem genProgram_of_block {fuel : Nat} {toks : List Token} {x : Stmt}
    {st : PState} (h : block true (fuel + 1) ⟨toks, Sem.init⟩ = .ok (x, st)) :
    ∃ g, genProgram x GState.init = .ok ((1, 2), g) := by
  obtain ⟨b, rest, -, -, hp⟩ := block_sound (stmtSound fuel).stmts h
  have hb := (STree.block b).perform_built hp
  obtain ⟨g, k, -, hg⟩ := genProgram_run hb.wellTyped hb.loopsIn
  exact ⟨g, hg⟩

/-- The program is done when its block is, with the same error if any. -/
theorem program_eq_block (toks : List Token) :
    (∃ o, program toks = .ok o) ∧
      (∃ r, block true (enoughFuel toks) ⟨toks, Sem.init⟩ = .ok r) ∨
    ∃ e, program toks = .error e ∧
      block true (enoughFuel toks) ⟨toks, Sem.init⟩ = .error e := by
  cases hb : block true (enoughFuel toks) ⟨toks, Sem.init⟩ with
  | error e =>
      refine Or.inr ⟨e, ?_, rfl⟩
      rw [program, hb]
      rfl
  | ok r =>
      obtain ⟨x, st⟩ := r
      obtain ⟨g, hg⟩ := genProgram_of_block hb
      refine Or.inl ⟨⟨⟨x, st.sem.log, 1, 2, g⟩, ?_⟩, _, rfl⟩
      rw [program, hb]
      show ((genProgram x GState.init) >>= _) = _
      rw [hg]
      rfl

theorem program_total (toks : List Token) :
    (∃ o, program toks = .ok o) ∨
      ∃ message, program toks = .error (.error message) := by
  obtain ⟨ho, -⟩ | ⟨e, he, hb⟩ := program_eq_block toks
  · exact Or.inl ho
  · cases e with
    | outOfFuel => exact absurd hb (block_enough toks (Nat.le_refl _))
    | error message => exact Or.inr ⟨message, he⟩

/-- The loops of `scan` stop on the bytes `rest`: allowed two rounds more than
there are bytes, each comes to its end, with the result the model has. -/
structure ScanHalts (rest : List UInt8) : Prop where
  blanks : ∀ (fuel : Nat) (line : Int32) (peek : Char),
    rest.length + 2 ≤ fuel →
    readLoop blankBody fuel line peek rest = some (skipBlanks line peek rest)
  int : ∀ (fuel : Nat) (n : Num) (peek : Char), rest.length + 2 ≤ fuel →
    readLoop intBody fuel n peek rest = some (scanInt n peek rest)
  frac : ∀ (fuel : Nat) (ds : List Nat), rest.length + 2 ≤ fuel →
    readLoop fracBody fuel ds (readch rest).1 (readch rest).2 =
      some (scanFrac ds rest)
  word : ∀ (fuel : Nat) (s : List Char) (peek : Char),
    rest.length + 2 ≤ fuel →
    readLoop wordBody fuel s peek rest = some (scanWord s peek rest)

theorem scanHalts (rest : List UInt8) : ScanHalts rest where
  blanks := fun _ line peek h => skipBlanks_halts h line peek
  int := fun _ n peek h => scanInt_halts h n peek
  frac := fun _ ds h => scanFrac_halts h ds
  word := fun _ s peek h => scanWord_halts h s peek

/-- On every input the front end comes to an end: the loops of `scan` stop,
whatever is left of the input; the calls of `scan` answer finitely many tokens
and then the end of file; on these no method runs out of fuel, from a number
on that the tokens bound; and `program` returns or throws an `Error`. -/
theorem program_terminates (input : List UInt8) :
    (∀ rest, rest <:+ input → ScanHalts rest) ∧
    (∀ n, (Lexer.new input).nth n = (tokenize input).getD n Token.eof) ∧
    (∀ fuel, enoughFuel (tokenize input) ≤ fuel →
      block true fuel ⟨tokenize input, Sem.init⟩ ≠ .error .outOfFuel) ∧
    ((∃ o, program (tokenize input) = .ok o) ∨
      ∃ message, program (tokenize input) = .error (.error message)) :=
  ⟨fun rest _ => scanHalts rest, scan_stream input,
    fun _ h => block_enough _ h, program_total _⟩

end LearningLinux.FrontEnd
