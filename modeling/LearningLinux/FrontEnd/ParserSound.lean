import LearningLinux.Lib.StateExcept
import LearningLinux.FrontEnd.Grammar

/-!
# What the parser accepts is a tree it has performed

If a method of the parser returns, then the tokens it consumed are the yield
of a tree of its nonterminal, and the actions it ran are the tree's. One
induction on the fuel covers the methods for expressions (`exprSound`) and
one those for statements (`stmtSound`). The loops carry the tree of what has
been read so far; each iteration puts an operand to its right.
-/

namespace LearningLinux.FrontEnd

open Lib

/-! ## The steps a method is made of -/

section Steps

variable {α : Type} {s s' : PState} {a : α}

theorem look_bind {β : Type} {f : Token → P β} :
    (look >>= f) s = f (s.toks.headD Token.eof) s := rfl

theorem move_bind {β : Type} {f : Unit → P β} :
    (move >>= f) s = f () ⟨s.toks.tail, s.sem⟩ := rfl

theorem act_ok {x : Act α} :
    act x s = .ok (a, s') ↔
      ∃ sem, x s.sem = .ok (a, sem) ∧ s' = ⟨s.toks, sem⟩ := by
  rw [act]
  cases hx : x s.sem with
  | error e => simp
  | ok p =>
      obtain ⟨b, sem⟩ := p
      constructor
      · intro h
        cases h
        exact ⟨sem, rfl, rfl⟩
      · intro ⟨sem', h, hs⟩
        cases h
        rw [hs]

theorem lift_ok {x : Except Err α} {e e' : Sem} :
    lift x e = .ok (a, e') ↔ x = .ok a ∧ e' = e := by
  cases x with
  | error err => simp [lift, Except.map]
  | ok b =>
      constructor
      · intro h
        cases h
        exact ⟨rfl, rfl⟩
      · intro ⟨h, he⟩
        cases h
        rw [he]
        rfl

theorem actLift_ok {x : Except Err α} :
    act (lift x) s = .ok (a, s') ↔ x = .ok a ∧ s' = s := by
  rw [act_ok]
  constructor
  · intro ⟨sem, hx, hs⟩
    obtain ⟨hx', hsem⟩ := lift_ok.mp hx
    rw [hsem] at hs
    exact ⟨hx', hs⟩
  · intro ⟨hx, hs⟩
    exact ⟨s.sem, lift_ok.mpr ⟨hx, rfl⟩, hs⟩

/-- A token other than the end of input is really there. -/
theorem toks_of_look {t : Token} (h : s.toks.headD Token.eof = t)
    (ht : t ≠ Token.eof) : s.toks = t :: s.toks.tail := by
  cases hs : s.toks with
  | nil =>
      rw [hs] at h
      exact absurd h.symm ht
  | cons b l =>
      rw [hs] at h
      rw [← h]
      rfl

theorem matchTok_ok {t : Token} {u : Unit} (ht : t ≠ Token.eof) :
    matchTok t s = .ok (u, s') ↔ s.toks = t :: s'.toks ∧ s'.sem = s.sem := by
  rw [matchTok, look_bind]
  constructor
  · intro h
    by_cases he : s.toks.headD Token.eof = t
    · rw [if_pos he] at h
      cases h
      exact ⟨toks_of_look he ht, rfl⟩
    · rw [if_neg he] at h
      cases h
  · intro ⟨h, hs⟩
    rw [if_pos (by rw [h]; rfl)]
    show Except.ok ((), (⟨s.toks.tail, s.sem⟩ : PState)) = _
    rw [h, ← hs]
    rfl

theorem matchTag_ok {data : Token → Option α} (hd : data Token.eof = none) :
    matchTag data s = .ok (a, s') ↔
      ∃ t, data t = some a ∧ s.toks = t :: s'.toks ∧ s'.sem = s.sem := by
  rw [matchTag, look_bind]
  constructor
  · intro h
    cases hb : data (s.toks.headD Token.eof) with
    | none =>
        rw [hb] at h
        cases h
    | some b =>
        rw [hb] at h
        cases h
        refine ⟨_, hb, toks_of_look rfl fun hc => ?_, rfl⟩
        rw [hc, hd] at hb
        cases hb
  · intro ⟨t, ht, h, hs⟩
    have hl : s.toks.headD Token.eof = t := by rw [h]; rfl
    rw [hl, ht]
    show Except.ok (a, (⟨s.toks.tail, s.sem⟩ : PState)) = _
    rw [h, ← hs]
    rfl

theorem asId_eq {t : Token} {w : Word} : t.asId = some w ↔ t = .id w := by
  cases t <;> simp [Token.asId]

theorem asNum_eq {t : Token} {n : Num} : t.asNum = some n ↔ t = .num n := by
  cases t <;> simp [Token.asNum]

theorem asBasic_eq {t : Token} {b : Basic} :
    t.asBasic = some b ↔ t = .basic b := by
  cases t <;> simp [Token.asBasic]

theorem matchId_ok {w : Word} :
    matchId s = .ok (w, s') ↔ s.toks = .id w :: s'.toks ∧ s'.sem = s.sem := by
  rw [matchId, matchTag_ok rfl]
  simp only [asId_eq, exists_eq_left]

theorem matchNum_ok {n : Num} :
    matchNum s = .ok (n, s') ↔ s.toks = .num n :: s'.toks ∧ s'.sem = s.sem := by
  rw [matchNum, matchTag_ok rfl]
  simp only [asNum_eq, exists_eq_left]

theorem matchBasic_ok {b : Basic} :
    matchBasic s = .ok (b, s') ↔
      s.toks = .basic b :: s'.toks ∧ s'.sem = s.sem := by
  rw [matchBasic, matchTag_ok rfl]
  simp only [asBasic_eq, exists_eq_left]

end Steps

/-! ## Expressions -/

/-- Whatever `f` answers, it has read and performed a tree. -/
def SoundAt (k : Level) (f : P Expr) : Prop :=
  ∀ {s s' : PState} {x : Expr}, f s = .ok (x, s') →
    ∃ t : ETree k, s.toks = t.yield ++ s'.toks ∧
      t.perform s.sem = .ok (x, s'.sem)

theorem BinLevel.op_ne_eof {l : BinLevel} {tok : Token} {op : BinOp}
    (h : l.op tok = some op) : tok ≠ Token.eof := by
  rintro rfl
  cases l <;> cases h

theorem relOp_ne_eof {tok : Token} {op : RelOp} (h : relOp tok = some op) :
    tok ≠ Token.eof := by
  rintro rfl
  cases h

theorem binLoop_sound {l : BinLevel} {operand : P Expr}
    (ho : SoundAt l.operand operand) : ∀ (fuel : Nat) {x r : Expr}
    {s s' : PState} {toks : List Token} {sem : Sem} (t : ETree (.bin l)),
    toks = t.yield ++ s.toks → t.perform sem = .ok (x, s.sem) →
    binLoop l operand fuel x s = .ok (r, s') →
    ∃ t' : ETree (.bin l), toks = t'.yield ++ s'.toks ∧
      t'.perform sem = .ok (r, s'.sem) := by
  intro fuel
  induction fuel with
  | zero => intro x r s s' toks sem t _ _ h; cases h
  | succ fuel ih =>
      intro x r s s' toks sem t ht hp h
      rw [binLoop, look_bind] at h
      cases hop : l.op (s.toks.headD Token.eof) with
      | none =>
          rw [hop] at h
          cases h
          exact ⟨t, ht, hp⟩
      | some op =>
          simp only [hop] at h
          rw [move_bind] at h
          obtain ⟨y, s₁, hy, h₁⟩ := bind_ok.mp h
          obtain ⟨x', s₂, hx, h₂⟩ := bind_ok.mp h₁
          obtain ⟨hx', rfl⟩ := actLift_ok.mp hx
          obtain ⟨u, hu, hup⟩ := ho hy
          have hu' : s.toks.tail = u.yield ++ s₂.toks := hu
          refine ih (.binary t _ op hop u) ?_ ?_ h₂
          · have hcons := @toks_of_look s _ rfl (BinLevel.op_ne_eof hop)
            rw [ht, ETree.yield, List.append_assoc, List.cons_append, ← hu',
              ← hcons]
          · rw [ETree.perform, bind_run hp, bind_run hup, lift_ok]
            exact ⟨hx', rfl⟩

theorem binary_sound {l : BinLevel} {operand : P Expr}
    (ho : SoundAt l.operand operand) (fuel : Nat) :
    SoundAt (.bin l) (binary l operand fuel) := by
  intro s s' x h
  obtain ⟨y, s₁, hy, h₁⟩ := bind_ok.mp h
  obtain ⟨t, ht, hp⟩ := ho hy
  exact binLoop_sound ho fuel (.operand l t) ht hp h₁

theorem subscript_sound {b : P Expr} (hb : SoundAt (.bin .bool) b)
    {type type' : Ty} {t1 : Expr} {s s' : PState}
    (h : subscript b type s = .ok ((t1, type'), s')) :
    ∃ (i : BoolTree) (x : Expr),
      s.toks = .chr '[' :: i.yield ++ .chr ']' :: s'.toks ∧
      i.perform s.sem = .ok (x, s'.sem) ∧ scale x type = .ok (t1, type') := by
  rw [subscript, bind_ok] at h
  obtain ⟨_, s₁, hopen, h₁⟩ := h
  obtain ⟨x, s₂, hx, h₂⟩ := bind_ok.mp h₁
  obtain ⟨_, s₃, hclose, h₃⟩ := bind_ok.mp h₂
  obtain ⟨hs, rfl⟩ := actLift_ok.mp h₃
  obtain ⟨hopen', hsem₁⟩ := (matchTok_ok (by decide)).mp hopen
  obtain ⟨hclose', hsem₃⟩ := (matchTok_ok (by decide)).mp hclose
  obtain ⟨i, hi, hp⟩ := hb hx
  refine ⟨i, x, ?_, ?_, hs⟩
  · rw [hopen', hi, hclose']
    simp
  · rw [← hsem₁, hp, hsem₃]

theorem offsetLoop_sound {b : P Expr} (hb : SoundAt (.bin .bool) b) {a : Id} :
    ∀ (fuel : Nat) {loc loc' : Expr} {type type' : Ty} {s s' : PState}
    {toks : List Token} {sem : Sem} (t : ETree .loc),
    toks = t.yield ++ s.toks →
    t.perform sem = .ok (.access a loc type, s.sem) →
    offsetLoop b fuel loc type s = .ok ((loc', type'), s') →
    ∃ t' : ETree .loc, toks = t'.yield ++ s'.toks ∧
      t'.perform sem = .ok (.access a loc' type', s'.sem) := by
  intro fuel
  induction fuel with
  | zero => intro loc loc' type type' s s' toks sem t _ _ h; cases h
  | succ fuel ih =>
      intro loc loc' type type' s s' toks sem t ht hp h
      rw [offsetLoop, look_bind] at h
      by_cases hb' : s.toks.headD Token.eof = .chr '['
      · rw [if_pos hb', bind_ok] at h
        obtain ⟨⟨t1, type₁⟩, s₁, hsub, h₁⟩ := h
        obtain ⟨t2, s₂, hadd, h₂⟩ := bind_ok.mp h₁
        obtain ⟨hadd', rfl⟩ := actLift_ok.mp hadd
        obtain ⟨i, x, htoks, hi, hscale⟩ := subscript_sound hb hsub
        refine ih (.more t i) ?_ ?_ h₂
        · rw [ht, htoks, ETree.yield]
          simp
        · rw [ETree.perform, bind_run hp]
          show (i.perform >>= _) s.sem = _
          rw [bind_run hi, bind_run (lift_ok.mpr ⟨hscale, rfl⟩)]
          show (lift (newArith .add loc t1) >>= _) s₂.sem = _
          rw [bind_run (lift_ok.mpr ⟨hadd', rfl⟩)]
          rfl
      · rw [if_neg hb'] at h
        cases h
        exact ⟨t, ht, hp⟩

theorem offset_sound {fuel : Nat} (hb : SoundAt (.bin .bool) (bool fuel))
    {w : Word} {a : Id} {sem : Sem} {s s' : PState} {loc : Expr} {type : Ty}
    (hr : resolve w sem = .ok (a, s.sem))
    (h : offset (fuel + 1) a s = .ok ((loc, type), s')) :
    ∃ t : ETree .loc, .id w :: s.toks = t.yield ++ s'.toks ∧
      t.perform sem = .ok (.access a loc type, s'.sem) := by
  rw [offset, bind_ok] at h
  obtain ⟨⟨t1, type₁⟩, s₁, hsub, h₁⟩ := h
  obtain ⟨i, x, htoks, hi, hscale⟩ := subscript_sound hb hsub
  refine offsetLoop_sound hb fuel (.first w i) ?_ ?_ h₁
  · rw [htoks, ETree.yield]
    simp
  · rw [ETree.perform, bind_run hr, bind_run hi,
      bind_run (lift_ok.mpr ⟨hscale, rfl⟩)]
    rfl

theorem rel_sound {fuel : Nat} (he : SoundAt (.bin .expr) (expr fuel)) :
    SoundAt .rel (rel (fuel + 1)) := by
  intro s s' x h
  rw [rel, bind_ok] at h
  obtain ⟨y, s₁, hy, h₁⟩ := h
  obtain ⟨t, ht, hp⟩ := he hy
  rw [look_bind] at h₁
  cases hop : relOp (s₁.toks.headD Token.eof) with
  | none =>
      rw [hop] at h₁
      cases h₁
      exact ⟨.plain t, ht, hp⟩
  | some op =>
      simp only [hop] at h₁
      rw [move_bind] at h₁
      obtain ⟨z, s₂, hz, h₂⟩ := bind_ok.mp h₁
      obtain ⟨hx, rfl⟩ := actLift_ok.mp h₂
      obtain ⟨u, hu, hup⟩ := he hz
      have hu' : s₁.toks.tail = u.yield ++ s'.toks := hu
      refine ⟨.relation t _ op hop u, ?_, ?_⟩
      · have hcons := @toks_of_look s₁ _ rfl (relOp_ne_eof hop)
        rw [ht, ETree.yield, List.append_assoc, List.cons_append, ← hu',
          ← hcons]
      · rw [ETree.perform, bind_run hp, bind_run hup, lift_ok]
        exact ⟨hx, rfl⟩

theorem unary_sound {fuel : Nat} (hu : SoundAt .unary (unary fuel))
    (hf : SoundAt .factor (factor fuel)) :
    SoundAt .unary (unary (fuel + 1)) := by
  intro s s' x h
  rw [unary, look_bind] at h
  by_cases hminus : s.toks.headD Token.eof = .chr '-'
  · rw [if_pos hminus, move_bind] at h
    obtain ⟨y, s₁, hy, h₁⟩ := bind_ok.mp h
    obtain ⟨hx, rfl⟩ := actLift_ok.mp h₁
    obtain ⟨t, ht, hp⟩ := hu hy
    refine ⟨.minus t, ?_, ?_⟩
    · rw [toks_of_look hminus (by decide)]
      exact congrArg _ ht
    · rw [ETree.perform, bind_run hp, lift_ok]
      exact ⟨hx, rfl⟩
  · rw [if_neg hminus] at h
    by_cases hbang : s.toks.headD Token.eof = .chr '!'
    · rw [if_pos hbang, move_bind] at h
      obtain ⟨y, s₁, hy, h₁⟩ := bind_ok.mp h
      obtain ⟨hx, rfl⟩ := actLift_ok.mp h₁
      obtain ⟨t, ht, hp⟩ := hu hy
      refine ⟨.bang t, ?_, ?_⟩
      · rw [toks_of_look hbang (by decide)]
        exact congrArg _ ht
      · rw [ETree.perform, bind_run hp, lift_ok]
        exact ⟨hx, rfl⟩
    · rw [if_neg hbang] at h
      obtain ⟨t, ht, hp⟩ := hf h
      exact ⟨.single t, ht, hp⟩

/-- The methods for expressions, with so much fuel. -/
structure ExprSound (fuel : Nat) : Prop where
  bool : SoundAt (.bin .bool) (bool fuel)
  join : SoundAt (.bin .join) (join fuel)
  equality : SoundAt (.bin .equality) (equality fuel)
  rel : SoundAt .rel (rel fuel)
  expr : SoundAt (.bin .expr) (expr fuel)
  term : SoundAt (.bin .term) (term fuel)
  unary : SoundAt .unary (unary fuel)
  factor : SoundAt .factor (factor fuel)
  offset : ∀ {w : Word} {a : Id} {sem : Sem} {s s' : PState} {loc : Expr}
    {type : Ty}, resolve w sem = .ok (a, s.sem) →
    offset fuel a s = .ok ((loc, type), s') →
    ∃ t : ETree .loc, .id w :: s.toks = t.yield ++ s'.toks ∧
      t.perform sem = .ok (.access a loc type, s'.sem)

theorem factor_sound {fuel : Nat} (ih : ExprSound fuel) :
    SoundAt .factor (factor (fuel + 1)) := by
  intro s s' x h
  rw [factor_succ, look_bind] at h
  have htoks : ∀ {t}, s.toks.headD Token.eof = t → t ≠ Token.eof →
      s.toks = t :: s.toks.tail := toks_of_look
  cases hl : s.toks.headD Token.eof with
  | chr c =>
      simp only [hl] at h
      by_cases hc : c = '('
      · subst hc
        rw [if_pos rfl, move_bind] at h
        obtain ⟨y, s₁, hy, h₁⟩ := bind_ok.mp h
        obtain ⟨_, s₂, hclose, h₂⟩ := bind_ok.mp h₁
        obtain ⟨hclose', hsem⟩ := (matchTok_ok (by decide)).mp hclose
        cases pure_ok.mp h₂
        obtain ⟨t, ht, hp⟩ := ih.bool hy
        refine ⟨.paren t, ?_, ?_⟩
        · have ht' : s.toks.tail = t.yield ++ s₁.toks := ht
          rw [htoks hl (by decide), ht', hclose', ETree.yield]
          simp
        · rw [ETree.perform, hp, hsem]
      · rw [if_neg hc] at h
        cases h
  | num n =>
      rw [hl] at h
      cases h
      exact ⟨.num n, htoks hl (by intro hc; cases hc), rfl⟩
  | real r =>
      rw [hl] at h
      cases h
      exact ⟨.real r, htoks hl (by intro hc; cases hc), rfl⟩
  | true =>
      rw [hl] at h
      cases h
      exact ⟨.true, htoks hl (by intro hc; cases hc), rfl⟩
  | false =>
      rw [hl] at h
      cases h
      exact ⟨.false, htoks hl (by intro hc; cases hc), rfl⟩
  | id w =>
      simp only [hl] at h
      obtain ⟨id, s₁, hres, h₁⟩ := bind_ok.mp h
      obtain ⟨sem, hres', rfl⟩ := act_ok.mp hres
      rw [move_bind, look_bind] at h₁
      have hcons := htoks hl (by intro hc; cases hc)
      by_cases hb : s.toks.tail.headD Token.eof = .chr '['
      · rw [if_neg (not_not.mpr hb)] at h₁
        obtain ⟨⟨loc, type⟩, s₂, hoff, h₂⟩ := bind_ok.mp h₁
        cases pure_ok.mp h₂
        obtain ⟨t, ht, hp⟩ := ih.offset hres' hoff
        refine ⟨.elem t, ?_, hp⟩
        rw [hcons]
        exact ht
      · rw [if_pos hb] at h₁
        cases h₁
        refine ⟨.var w, hcons, ?_⟩
        rw [ETree.perform, bind_run hres']
        rfl
  | _ =>
      rw [hl] at h
      cases h

theorem exprSound : ∀ fuel : Nat, ExprSound fuel := by
  intro fuel
  induction fuel with
  | zero =>
      have hout : ∀ k, SoundAt k outOfFuel := by
        intro k s s' x h
        cases h
      exact ⟨hout _, hout _, hout _, hout _, hout _, hout _, hout _, hout _,
        fun _ h => by cases h⟩
  | succ fuel ih =>
      exact {
        bool := binary_sound ih.join fuel
        join := binary_sound ih.equality fuel
        equality := binary_sound ih.rel fuel
        rel := rel_sound ih.expr
        expr := binary_sound ih.term fuel
        term := binary_sound ih.unary fuel
        unary := unary_sound ih.unary ih.factor
        factor := factor_sound ih
        offset := offset_sound ih.bool }

/-! ## Declarations -/

theorem dims_sound : ∀ (fuel : Nat) {p q : Ty} {s s' : PState},
    dims fuel p s = .ok (q, s') →
    ∃ ds : List Num, s.toks = ds.flatMap dimTokens ++ s'.toks ∧
      q = ds.foldr .array p ∧ s'.sem = s.sem := by
  intro fuel
  induction fuel with
  | zero => intro p q s s' h; cases h
  | succ fuel ih =>
      intro p q s s' h
      rw [dims, bind_ok] at h
      obtain ⟨_, s₁, hopen, h₁⟩ := h
      obtain ⟨n, s₂, hnum, h₂⟩ := bind_ok.mp h₁
      obtain ⟨_, s₃, hclose, h₃⟩ := bind_ok.mp h₂
      obtain ⟨hopen', hsem₁⟩ := (matchTok_ok (by decide)).mp hopen
      obtain ⟨hnum', hsem₂⟩ := matchNum_ok.mp hnum
      obtain ⟨hclose', hsem₃⟩ := (matchTok_ok (by decide)).mp hclose
      have hsem : s₃.sem = s.sem := by rw [hsem₃, hsem₂, hsem₁]
      have htoks : s.toks = dimTokens n ++ s₃.toks := by
        rw [hopen', hnum', hclose']
        rfl
      rw [look_bind] at h₃
      by_cases hb : s₃.toks.headD Token.eof = .chr '['
      · rw [if_pos hb] at h₃
        obtain ⟨q', s₄, hdims, h₄⟩ := bind_ok.mp h₃
        cases pure_ok.mp h₄
        obtain ⟨ds, hds, hq, hsem₄⟩ := ih hdims
        refine ⟨n :: ds, ?_, ?_, by rw [hsem₄, hsem]⟩
        · rw [htoks, hds, List.flatMap_cons, List.append_assoc]
        · rw [hq, List.foldr_cons]
      · rw [if_neg hb] at h₃
        cases pure_ok.mp h₃
        refine ⟨[n], ?_, rfl, hsem⟩
        rw [htoks, List.flatMap_cons, List.flatMap_nil, List.append_nil]

theorem type_sound {fuel : Nat} {p : Ty} {s s' : PState}
    (h : type fuel s = .ok (p, s')) :
    ∃ (b : Basic) (ds : List Num),
      s.toks = .basic b :: ds.flatMap dimTokens ++ s'.toks ∧
      p = ds.foldr .array (.basic b) ∧ s'.sem = s.sem := by
  rw [type, bind_ok] at h
  obtain ⟨b, s₁, hb, h₁⟩ := h
  obtain ⟨hb', hsem₁⟩ := matchBasic_ok.mp hb
  rw [look_bind] at h₁
  by_cases hd : s₁.toks.headD Token.eof = .chr '['
  · rw [if_neg (not_not.mpr hd)] at h₁
    obtain ⟨ds, hds, hp, hsem⟩ := dims_sound fuel h₁
    refine ⟨b, ds, ?_, hp, by rw [hsem, hsem₁]⟩
    rw [hb', hds, List.cons_append]
  · rw [if_pos hd] at h₁
    cases pure_ok.mp h₁
    exact ⟨b, [], hb', rfl, hsem₁⟩

/-- The tokens of the declarators behind the first. -/
def moreTokens (more : List (Sep × Word)) : List Token :=
  more.flatMap fun p => [p.1.token, .id p.2]

theorem declarators_sound {p : Ty} : ∀ (fuel : Nat) {u : Unit}
    {s s' : PState}, declarators p fuel s = .ok (u, s') →
    ∃ (w : Word) (more : List (Sep × Word)) (sem : Sem),
      s.toks = .id w :: moreTokens more ++ .chr ';' :: s'.toks ∧
      declare w p s.sem = .ok ((), sem) ∧
      performMore p more sem = .ok ((), s'.sem) := by
  intro fuel
  induction fuel with
  | zero => intro u s s' h; cases h
  | succ fuel ih =>
      intro u s s' h
      rw [declarators, bind_ok] at h
      obtain ⟨w, s₁, hw, h₁⟩ := h
      obtain ⟨hw', hsem₁⟩ := matchId_ok.mp hw
      obtain ⟨_, s₂, hdecl, h₂⟩ := bind_ok.mp h₁
      obtain ⟨sem, hdecl', rfl⟩ := act_ok.mp hdecl
      rw [hsem₁] at hdecl'
      rw [look_bind] at h₂
      by_cases hsemi : s₁.toks.headD Token.eof = .chr ';'
      · rw [if_pos hsemi] at h₂
        obtain ⟨hsemi', hsem⟩ := (matchTok_ok (by decide)).mp h₂
        have hsemi' : s₁.toks = .chr ';' :: s'.toks := hsemi'
        refine ⟨w, [], sem, ?_, hdecl', ?_⟩
        · rw [hw', hsemi']
          rfl
        · rw [hsem]
          rfl
      · rw [if_neg hsemi] at h₂
        by_cases hassign : s₁.toks.headD Token.eof = .chr '='
        · rw [if_pos hassign] at h₂
          obtain ⟨_, s₃, heq, h₃⟩ := bind_ok.mp h₂
          obtain ⟨_, s₄, hrec, h₄⟩ := bind_ok.mp h₃
          obtain ⟨heq', hsem₃⟩ := (matchTok_ok (by decide)).mp heq
          have heq' : s₁.toks = .chr '=' :: s₃.toks := heq'
          obtain ⟨sem', hrec', rfl⟩ := act_ok.mp hrec
          obtain ⟨w', more, sem'', htoks, hd, hm⟩ := ih h₄
          have htoks' : s₃.toks = .id w' :: moreTokens more ++
            .chr ';' :: s'.toks := htoks
          refine ⟨w, (.assign, w') :: more, sem, ?_, hdecl', ?_⟩
          · rw [hw', heq', htoks']
            rfl
          · rw [hsem₃] at hrec'
            rw [performMore]
            show (record .assignSep >>= fun _ => _) sem = _
            rw [bind_run hrec', bind_run hd]
            exact hm
        · rw [if_neg hassign] at h₂
          obtain ⟨_, s₃, hcomma, h₃⟩ := bind_ok.mp h₂
          obtain ⟨hcomma', hsem₃⟩ := (matchTok_ok (by decide)).mp hcomma
          have hcomma' : s₁.toks = .chr ',' :: s₃.toks := hcomma'
          obtain ⟨w', more, sem'', htoks, hd, hm⟩ := ih h₃
          refine ⟨w, (.comma, w') :: more, sem, ?_, hdecl', ?_⟩
          · rw [hw', hcomma', htoks]
            rfl
          · rw [hsem₃] at hd
            rw [performMore]
            show (declare w' p >>= fun _ => _) sem = _
            rw [bind_run hd]
            exact hm

theorem decls_sound : ∀ (fuel : Nat) {u : Unit} {s s' : PState},
    decls fuel s = .ok (u, s') →
    ∃ ds : List Decl, s.toks = ds.flatMap Decl.yield ++ s'.toks ∧
      performDecls ds s.sem = .ok ((), s'.sem) := by
  intro fuel
  induction fuel with
  | zero => intro u s s' h; cases h
  | succ fuel ih =>
      intro u s s' h
      rw [decls, look_bind] at h
      cases hl : s.toks.headD Token.eof with
      | basic b =>
          simp only [hl] at h
          obtain ⟨p, s₁, htype, h₁⟩ := bind_ok.mp h
          obtain ⟨_, s₂, hdecl, h₂⟩ := bind_ok.mp h₁
          obtain ⟨b', dims, htoks, rfl, hsem⟩ := type_sound htype
          obtain ⟨w, more, sem, htoks', hd, hm⟩ := declarators_sound fuel hdecl
          obtain ⟨ds, hds, hp⟩ := ih h₂
          refine ⟨⟨b', dims, w, more⟩ :: ds, ?_, ?_⟩
          · rw [htoks, htoks', hds, List.flatMap_cons, Decl.yield, moreTokens]
            simp
          · rw [hsem] at hd
            rw [performDecls]
            have hdecl' : Decl.perform ⟨b', dims, w, more⟩ s.sem =
                .ok ((), s₂.sem) := by
              rw [Decl.perform]
              exact (bind_run hd).trans hm
            rw [bind_run hdecl']
            exact hp
      | _ =>
          rw [hl] at h
          cases h
          exact ⟨[], rfl, rfl⟩

/-! ## Statements -/

def SoundStmt (k : SKind) (f : P Stmt) : Prop :=
  ∀ {s s' : PState} {x : Stmt}, f s = .ok (x, s') →
    ∃ t : STree k, s.toks = t.yield ++ s'.toks ∧
      t.perform s.sem = .ok (x, s'.sem)

theorem assign_sound (fuel : Nat) : SoundStmt .stmt (assign fuel) := by
  intro s s' x h
  rw [assign, bind_ok] at h
  obtain ⟨w, s₁, hw, h₁⟩ := h
  obtain ⟨hw', hsem₁⟩ := matchId_ok.mp hw
  obtain ⟨id, s₂, hres, h₂⟩ := bind_ok.mp h₁
  obtain ⟨sem, hres', rfl⟩ := act_ok.mp hres
  rw [hsem₁] at hres'
  obtain ⟨st, s₃, hst, h₃⟩ := bind_ok.mp h₂
  obtain ⟨_, s₄, hsemi, h₄⟩ := bind_ok.mp h₃
  cases pure_ok.mp h₄
  rw [assignTo, look_bind] at hst
  obtain ⟨hsemi', hsem₄⟩ := (matchTok_ok (by decide)).mp hsemi
  by_cases heq : s₁.toks.headD Token.eof = .chr '='
  · rw [if_pos heq, move_bind] at hst
    obtain ⟨y, s₅, hy, h₅⟩ := bind_ok.mp hst
    obtain ⟨hset, rfl⟩ := actLift_ok.mp h₅
    obtain ⟨t, ht, hp⟩ := (exprSound fuel).bool hy
    have ht' : s₁.toks.tail = t.yield ++ s₃.toks := ht
    refine ⟨.assign w t, ?_, ?_⟩
    · rw [hw', toks_of_look heq (by decide), ht', hsemi', STree.yield]
      simp
    · rw [STree.perform, bind_run hres', bind_run hp, lift_ok]
      exact ⟨hset, hsem₄⟩
  · rw [if_neg heq] at hst
    obtain ⟨⟨loc, type⟩, s₅, hoff, h₅⟩ := bind_ok.mp hst
    obtain ⟨_, s₆, heq', h₆⟩ := bind_ok.mp h₅
    obtain ⟨y, s₇, hy, h₇⟩ := bind_ok.mp h₆
    obtain ⟨hset, rfl⟩ := actLift_ok.mp h₇
    obtain ⟨heq'', hsem₆⟩ := (matchTok_ok (by decide)).mp heq'
    obtain ⟨t, ht, hp⟩ := (exprSound fuel).offset hres' hoff
    have ht' : .id w :: s₁.toks = t.yield ++ s₅.toks := ht
    obtain ⟨u, hu, hup⟩ := (exprSound fuel).bool hy
    refine ⟨.assignElem t u, ?_, ?_⟩
    · rw [hw', ht', heq'', hu, hsemi', STree.yield]
      simp
    · rw [STree.perform, bind_run hp]
      show (u.perform >>= _) s₅.sem = _
      rw [← hsem₆, bind_run hup, lift_ok]
      exact ⟨hset, hsem₄⟩

/-- The methods for statements, with so much fuel. -/
structure StmtSound (fuel : Nat) : Prop where
  block : SoundStmt .stmt (block false fuel)
  stmts : SoundStmt .stmts (stmts fuel)
  stmt : SoundStmt .stmt (stmt fuel)

/-- A block up to its closing brace, which the outer one leaves unread. -/
theorem block_sound {fuel : Nat} (hs : SoundStmt .stmts (stmts fuel))
    {outer : Bool} {s s' : PState} {x : Stmt}
    (h : block outer (fuel + 1) s = .ok (x, s')) :
    ∃ (b : STree .stmts) (rest : List Token),
      s.toks = .chr '{' :: b.yield ++ .chr '}' :: rest ∧
      (outer = false → rest = s'.toks) ∧
      (STree.block b).perform s.sem = .ok (x, s'.sem) := by
  rw [block, bind_ok] at h
  obtain ⟨_, s₁, hopen, h₁⟩ := h
  obtain ⟨hopen', hsem₁⟩ := (matchTok_ok (by decide)).mp hopen
  obtain ⟨saved, s₂, henv, h₂⟩ := bind_ok.mp h₁
  obtain ⟨sem, henv', rfl⟩ := act_ok.mp henv
  rw [hsem₁] at henv'
  obtain ⟨y, s₃, hy, h₃⟩ := bind_ok.mp h₂
  obtain ⟨b, hb, hp⟩ := hs hy
  have hb' : s₁.toks = b.yield ++ s₃.toks := hb
  obtain ⟨_, s₄, hend, h₄⟩ := bind_ok.mp h₃
  obtain ⟨_, s₅, hclose, h₅⟩ := bind_ok.mp h₄
  obtain ⟨sem', hclose', rfl⟩ := act_ok.mp hclose
  cases pure_ok.mp h₅
  have hbrace : ∃ rest, s₃.toks = .chr '}' :: rest ∧
      (outer = false → rest = s₄.toks) ∧ s₄.sem = s₃.sem := by
    cases outer with
    | false =>
        obtain ⟨hc, hsem⟩ := (matchTok_ok (by decide)).mp hend
        exact ⟨_, hc, fun _ => rfl, hsem⟩
    | true =>
        rw [blockEnd, if_pos rfl, look_bind] at hend
        by_cases hc : s₃.toks.headD Token.eof = .chr '}'
        · rw [if_neg (not_not.mpr hc)] at hend
          cases hend
          have hfalse : true = false → s₃.toks.tail = s₃.toks := fun hf =>
            absurd hf (by decide)
          exact ⟨_, toks_of_look hc (by decide), hfalse, rfl⟩
        · rw [if_pos hc] at hend
          cases hend
  obtain ⟨rest, hrest, houter, hsem₄⟩ := hbrace
  refine ⟨b, rest, ?_, houter, ?_⟩
  · rw [hopen', hb', hrest]
    rfl
  · rw [hsem₄] at hclose'
    rw [STree.perform, bind_run henv', bind_run hp, bind_run hclose']
    rfl

theorem stmts_sound {fuel : Nat} (ih : StmtSound fuel) :
    SoundStmt .stmts (stmts (fuel + 1)) := by
  intro s s' x h
  rw [stmts, bind_ok] at h
  obtain ⟨_, s₁, hdecls, h₁⟩ := h
  rw [declsIfAny, look_bind] at hdecls
  have hds : ∃ ds : List Decl, s.toks = ds.flatMap Decl.yield ++ s₁.toks ∧
      performDecls ds s.sem = .ok ((), s₁.sem) := by
    cases hl : s.toks.headD Token.eof with
    | basic b =>
        rw [hl] at hdecls
        exact decls_sound fuel hdecls
    | _ =>
        rw [hl] at hdecls
        cases hdecls
        exact ⟨[], rfl, rfl⟩
  obtain ⟨ds, htoks, hp⟩ := hds
  rw [look_bind] at h₁
  by_cases hend : s₁.toks.headD Token.eof = .chr '}'
  · rw [if_pos hend] at h₁
    cases pure_ok.mp h₁
    refine ⟨.done ds, htoks, ?_⟩
    rw [STree.perform, bind_run hp]
    rfl
  · rw [if_neg hend] at h₁
    obtain ⟨y, s₂, hy, h₂⟩ := bind_ok.mp h₁
    obtain ⟨z, s₃, hz, h₃⟩ := bind_ok.mp h₂
    cases pure_ok.mp h₃
    obtain ⟨t, ht, htp⟩ := ih.stmt hy
    obtain ⟨u, hu, hup⟩ := ih.stmts hz
    refine ⟨.cons ds t u, ?_, ?_⟩
    · rw [htoks, ht, hu, STree.yield]
      simp
    · rw [STree.perform, bind_run hp, bind_run htp, bind_run hup]
      rfl

theorem ifStmt_sound {b : P Expr} {f : P Stmt} (hb : SoundAt (.bin .bool) b)
    (hf : SoundStmt .stmt f) : SoundStmt .stmt (ifStmt b f) := by
  intro s s' x h
  rw [ifStmt] at h
  obtain ⟨_, s₁, hif, h₁⟩ := bind_ok.mp h
  obtain ⟨_, s₂, hopen, h₂⟩ := bind_ok.mp h₁
  obtain ⟨y, s₃, hy, h₃⟩ := bind_ok.mp h₂
  obtain ⟨_, s₄, hclose, h₄⟩ := bind_ok.mp h₃
  obtain ⟨z, s₅, hz, h₅⟩ := bind_ok.mp h₄
  obtain ⟨hif', hsem₁⟩ := (matchTok_ok (by decide)).mp hif
  obtain ⟨hopen', hsem₂⟩ := (matchTok_ok (by decide)).mp hopen
  obtain ⟨hclose', hsem₄⟩ := (matchTok_ok (by decide)).mp hclose
  obtain ⟨c, hc, hcp⟩ := hb hy
  obtain ⟨t, ht, htp⟩ := hf hz
  rw [hsem₂, hsem₁] at hcp
  rw [hsem₄] at htp
  rw [look_bind] at h₅
  by_cases helse : s₅.toks.headD Token.eof = Token.else
  · rw [if_neg (not_not.mpr helse)] at h₅
    obtain ⟨_, s₆, helse', h₆⟩ := bind_ok.mp h₅
    obtain ⟨v, s₇, hv, h₇⟩ := bind_ok.mp h₆
    obtain ⟨hnew, rfl⟩ := actLift_ok.mp h₇
    obtain ⟨helse'', hsem₆⟩ := (matchTok_ok (by decide)).mp helse'
    obtain ⟨u, hu, hup⟩ := hf hv
    rw [hsem₆] at hup
    refine ⟨.ifElse c t u, ?_, ?_⟩
    · rw [hif', hopen', hc, hclose', ht, helse'', hu, STree.yield]
      simp
    · rw [STree.perform, bind_run hcp, bind_run htp, bind_run hup, lift_ok]
      exact ⟨hnew, rfl⟩
  · rw [if_pos helse] at h₅
    obtain ⟨hnew, rfl⟩ := actLift_ok.mp h₅
    refine ⟨.ifThen c t, ?_, ?_⟩
    · rw [hif', hopen', hc, hclose', ht, STree.yield]
      simp
    · rw [STree.perform, bind_run hcp, bind_run htp, lift_ok]
      exact ⟨hnew, rfl⟩

theorem whileStmt_sound {b : P Expr} {f : P Stmt}
    (hb : SoundAt (.bin .bool) b) (hf : SoundStmt .stmt f) :
    SoundStmt .stmt (whileStmt b f) := by
  intro s s' x h
  rw [whileStmt, bind_ok] at h
  obtain ⟨⟨node, saved⟩, s₁, henter, h₁⟩ := h
  obtain ⟨sem₁, henter', rfl⟩ := act_ok.mp henter
  obtain ⟨_, s₂, hwhile, h₂⟩ := bind_ok.mp h₁
  obtain ⟨_, s₃, hopen, h₃⟩ := bind_ok.mp h₂
  obtain ⟨y, s₄, hy, h₄⟩ := bind_ok.mp h₃
  obtain ⟨_, s₅, hclose, h₅⟩ := bind_ok.mp h₄
  obtain ⟨z, s₆, hz, h₆⟩ := bind_ok.mp h₅
  obtain ⟨r, s₇, hinit, h₇⟩ := bind_ok.mp h₆
  obtain ⟨hinit', rfl⟩ := actLift_ok.mp hinit
  obtain ⟨_, s₈, hleave, h₈⟩ := bind_ok.mp h₇
  obtain ⟨sem₈, hleave', rfl⟩ := act_ok.mp hleave
  cases pure_ok.mp h₈
  obtain ⟨hwhile', hsem₂⟩ := (matchTok_ok (by decide)).mp hwhile
  have hwhile' : s.toks = .while :: s₂.toks := hwhile'
  obtain ⟨hopen', hsem₃⟩ := (matchTok_ok (by decide)).mp hopen
  obtain ⟨hclose', hsem₅⟩ := (matchTok_ok (by decide)).mp hclose
  obtain ⟨c, hc, hcp⟩ := hb hy
  obtain ⟨t, ht, htp⟩ := hf hz
  rw [hsem₃, hsem₂] at hcp
  rw [hsem₅] at htp
  refine ⟨.whileDo c t, ?_, ?_⟩
  · rw [hwhile', hopen', hc, hclose', ht, STree.yield]
    simp
  · rw [STree.perform, bind_run henter']
    show (c.perform >>= fun x => t.perform >>= _) sem₁ = _
    rw [bind_run hcp, bind_run htp, bind_run (lift_ok.mpr ⟨hinit', rfl⟩),
      bind_run hleave']
    rfl

theorem doStmt_sound {b : P Expr} {f : P Stmt}
    (hb : SoundAt (.bin .bool) b) (hf : SoundStmt .stmt f) :
    SoundStmt .stmt (doStmt b f) := by
  intro s s' x h
  rw [doStmt, bind_ok] at h
  obtain ⟨⟨node, saved⟩, s₁, henter, h₁⟩ := h
  obtain ⟨sem₁, henter', rfl⟩ := act_ok.mp henter
  obtain ⟨_, s₂, hdo, h₂⟩ := bind_ok.mp h₁
  obtain ⟨z, s₃, hz, h₃⟩ := bind_ok.mp h₂
  obtain ⟨_, s₄, hwhile, h₄⟩ := bind_ok.mp h₃
  obtain ⟨_, s₅, hopen, h₅⟩ := bind_ok.mp h₄
  obtain ⟨y, s₆, hy, h₆⟩ := bind_ok.mp h₅
  obtain ⟨_, s₇, hclose, h₇⟩ := bind_ok.mp h₆
  obtain ⟨_, s₈, hsemi, h₈⟩ := bind_ok.mp h₇
  obtain ⟨r, s₉, hinit, h₉⟩ := bind_ok.mp h₈
  obtain ⟨hinit', rfl⟩ := actLift_ok.mp hinit
  obtain ⟨_, s₁₀, hleave, h₁₀⟩ := bind_ok.mp h₉
  obtain ⟨sem₁₀, hleave', rfl⟩ := act_ok.mp hleave
  cases pure_ok.mp h₁₀
  obtain ⟨hdo', hsem₂⟩ := (matchTok_ok (by decide)).mp hdo
  have hdo' : s.toks = .do :: s₂.toks := hdo'
  obtain ⟨hwhile', hsem₄⟩ := (matchTok_ok (by decide)).mp hwhile
  obtain ⟨hopen', hsem₅⟩ := (matchTok_ok (by decide)).mp hopen
  obtain ⟨hclose', hsem₇⟩ := (matchTok_ok (by decide)).mp hclose
  obtain ⟨hsemi', hsem₈⟩ := (matchTok_ok (by decide)).mp hsemi
  obtain ⟨c, hc, hcp⟩ := hb hy
  obtain ⟨t, ht, htp⟩ := hf hz
  rw [hsem₂] at htp
  rw [hsem₅, hsem₄] at hcp
  rw [hsem₈, hsem₇] at hleave'
  refine ⟨.doWhile t c, ?_, ?_⟩
  · rw [hdo', ht, hwhile', hopen', hc, hclose', hsemi', STree.yield]
    simp
  · rw [STree.perform, bind_run henter']
    show (t.perform >>= fun x => c.perform >>= _) sem₁ = _
    rw [bind_run htp, bind_run hcp, bind_run (lift_ok.mpr ⟨hinit', rfl⟩),
      bind_run hleave']
    rfl

/-- `break;` and `continue;`, with what they make. -/
theorem jump_sound {t : STree .stmt} {tok : Token} {make : Act Stmt}
    (htok : tok ≠ Token.eof) (hy : t.yield = [tok, .chr ';'])
    (hp : t.perform = make) :
    SoundStmt .stmt (do matchTok tok; matchTok (.chr ';'); act make) := by
  intro s s' x h
  obtain ⟨_, s₁, h₁, h₂⟩ := bind_ok.mp h
  obtain ⟨_, s₂, hsemi, h₃⟩ := bind_ok.mp h₂
  obtain ⟨sem, hmake, rfl⟩ := act_ok.mp h₃
  obtain ⟨htoks, hsem₁⟩ := (matchTok_ok htok).mp h₁
  obtain ⟨hsemi', hsem₂⟩ := (matchTok_ok (by decide)).mp hsemi
  refine ⟨t, ?_, ?_⟩
  · rw [htoks, hsemi', hy]
    rfl
  · rw [hp, ← hsem₁, ← hsem₂]
    exact hmake

theorem stmt_sound {fuel : Nat} (ih : StmtSound fuel) :
    SoundStmt .stmt (stmt (fuel + 1)) := by
  intro s s' x h
  rw [stmt_succ, look_bind] at h
  cases hl : s.toks.headD Token.eof with
  | chr c =>
      simp only [hl] at h
      by_cases hsemi : c = ';'
      · subst hsemi
        rw [if_pos rfl] at h
        cases h
        exact ⟨.empty, toks_of_look hl (by decide), rfl⟩
      · rw [if_neg hsemi] at h
        by_cases hbrace : c = '{'
        · rw [if_pos hbrace] at h
          exact ih.block h
        · rw [if_neg hbrace] at h
          exact assign_sound fuel h
  | «if» =>
      rw [hl] at h
      exact ifStmt_sound (exprSound fuel).bool ih.stmt h
  | «while» =>
      rw [hl] at h
      exact whileStmt_sound (exprSound fuel).bool ih.stmt h
  | «do» =>
      rw [hl] at h
      exact doStmt_sound (exprSound fuel).bool ih.stmt h
  | «break» =>
      rw [hl] at h
      exact @jump_sound .break .break _ (by decide) rfl rfl _ _ _ h
  | «continue» =>
      rw [hl] at h
      exact @jump_sound .continue .continue _ (by decide) rfl rfl _ _ _ h
  | _ =>
      rw [hl] at h
      exact assign_sound fuel h

theorem stmtSound : ∀ fuel : Nat, StmtSound fuel := by
  intro fuel
  induction fuel with
  | zero =>
      have hout : ∀ k, SoundStmt k outOfFuel := by
        intro k s s' x h
        cases h
      exact ⟨hout _, hout _, hout _⟩
  | succ fuel ih =>
      refine ⟨?_, stmts_sound ih, stmt_sound ih⟩
      intro s s' x h
      obtain ⟨b, rest, htoks, hrest, hp⟩ := block_sound ih.stmts h
      refine ⟨.block b, ?_, hp⟩
      rw [htoks, hrest rfl, STree.yield]
      simp

/-! ## Programs -/

/-- An accepted program is a block, the actions of which have been performed
and for which code has been generated. -/
theorem program_sound {toks : List Token} {o : Output}
    (h : program toks = .ok o) :
    ∃ (b : STree .stmts) (rest : List Token) (sem : Sem),
      toks = .chr '{' :: b.yield ++ .chr '}' :: rest ∧
      (STree.block b).perform Sem.init = .ok (o.stmt, sem) ∧
      o.log = sem.log ∧
      genProgram o.stmt GState.init = .ok ((o.begin, o.after), o.gen) := by
  rw [program] at h
  cases hb : block true (enoughFuel toks) ⟨toks, Sem.init⟩ with
  | error e =>
      rw [hb] at h
      cases h
  | ok p =>
      obtain ⟨x, st⟩ := p
      rw [hb] at h
      obtain ⟨b, rest, htoks, -, hp⟩ := block_sound (stmtSound _).stmts hb
      cases hg : genProgram x GState.init with
      | error e =>
          simp only [bind, Except.bind, hg] at h
          cases h
      | ok q =>
          simp only [bind, Except.bind, hg] at h
          cases h
          exact ⟨b, rest, st.sem, htoks, hp, rfl, hg⟩

end LearningLinux.FrontEnd
