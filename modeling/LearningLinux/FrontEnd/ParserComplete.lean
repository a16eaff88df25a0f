import LearningLinux.FrontEnd.Perform
import LearningLinux.FrontEnd.Termination

/-!
# What the grammar derives, the parser reads

The other direction of `ParserSound`: on the tokens of a tree, followed by
something that cannot belong to it, the method of its nonterminal reads the
tree and performs its actions. A method may still run out of fuel, so what is
proved is that it comes to the right end unless it does (`Parses`); that it
does not, with the fuel `program` gives, is `Termination`.

What follows a tree must not prolong it. For expressions that is a matter of
ranks: a method goes on as long as it sees an operator of its own level or a
tighter one. For statements it is the `else` of an `if` that has none.
-/

namespace LearningLinux.FrontEnd

open Lib

/-! ## Coming to an end -/

section Steps

variable {α β : Type} {s : PState}

/-- `p` ends with `r`, if its fuel lasts. -/
def Parses (p : P α) (s : PState) (r : α × PState) : Prop :=
  p s = .ok r ∨ p s = .error .outOfFuel

theorem parses_outOfFuel {r : α × PState} : Parses outOfFuel s r := .inr rfl

theorem parses_pure {a : α} : Parses (pure a) s (a, s) := .inl rfl

theorem Parses.bind {p : P α} {f : α → P β} {a : α} {s' : PState}
    {r : β × PState} (hp : Parses p s (a, s')) (hf : Parses (f a) s' r) :
    Parses (p >>= f) s r := by
  rcases hp with hp | hp
  · rw [Parses, bind_run hp]
    exact hf
  · right
    show (p s >>= fun q => f q.1 q.2) = _
    rw [hp]
    rfl

theorem parses_look {f : Token → P β} {t : Token} {r : β × PState}
    (hlook : s.toks.headD Token.eof = t) (h : Parses (f t) s r) :
    Parses (look >>= f) s r := by
  rw [← hlook] at h
  exact h

theorem parses_move {f : Unit → P β} {t : Token} {ts : List Token}
    {sem : Sem} {r : β × PState} (h : Parses (f ()) ⟨ts, sem⟩ r) :
    Parses (move >>= f) ⟨t :: ts, sem⟩ r := h

theorem parses_matchTok {t : Token} {ts : List Token} {sem : Sem} :
    Parses (matchTok t) ⟨t :: ts, sem⟩ ((), ⟨ts, sem⟩) := by
  left
  show (if t = t then move else syntaxError) _ = _
  rw [if_pos rfl]
  rfl

theorem parses_matchTag {data : Token → Option α} {t : Token} {a : α}
    {ts : List Token} {sem : Sem} (h : data t = some a) :
    Parses (matchTag data) ⟨t :: ts, sem⟩ (a, ⟨ts, sem⟩) := by
  rw [matchTag]
  refine parses_look (t := t) rfl ?_
  rw [h]
  exact .inl rfl

theorem parses_matchId {w : Word} {ts : List Token} {sem : Sem} :
    Parses matchId ⟨.id w :: ts, sem⟩ (w, ⟨ts, sem⟩) := parses_matchTag rfl

theorem parses_matchNum {n : Num} {ts : List Token} {sem : Sem} :
    Parses matchNum ⟨.num n :: ts, sem⟩ (n, ⟨ts, sem⟩) := parses_matchTag rfl

theorem parses_matchBasic {b : Basic} {ts : List Token} {sem : Sem} :
    Parses matchBasic ⟨.basic b :: ts, sem⟩ (b, ⟨ts, sem⟩) :=
  parses_matchTag rfl

theorem parses_act {x : Act α} {a : α} {ts : List Token} {sem sem' : Sem}
    (h : x sem = .ok (a, sem')) :
    Parses (act x) ⟨ts, sem⟩ (a, ⟨ts, sem'⟩) :=
  .inl (act_ok.mpr ⟨sem', h, rfl⟩)

theorem parses_lift {x : Except Err α} {a : α} {s : PState} (h : x = .ok a) :
    Parses (act (lift x)) s (a, s) := .inl (actLift_ok.mpr ⟨h, rfl⟩)

end Steps

/-! ## Ranks -/

/-- How tight a token binds what stands before it. -/
def Token.rank : Token → Nat
  | .chr '[' => 1
  | .chr '*' => 2
  | .chr '/' => 2
  | .chr '+' => 3
  | .chr '-' => 3
  | .chr '<' => 4
  | .chr '>' => 4
  | .le => 4
  | .ge => 4
  | .eq => 5
  | .ne => 5
  | .and => 6
  | .or => 7
  | _ => 8

/-- How tight the tokens are that the method of a level goes on at. -/
def Level.rank : Level → Nat
  | .bin .term => 2
  | .bin .expr => 3
  | .rel => 4
  | .bin .equality => 5
  | .bin .join => 6
  | .bin .bool => 7
  | _ => 1

theorem BinLevel.rank_of_op {l : BinLevel} {t : Token} {op : BinOp}
    (h : l.op t = some op) : t.rank = (Level.bin l).rank := by
  unfold BinLevel.op at h
  split at h <;> first | rfl | cases h

theorem rank_of_relOp {t : Token} {op : RelOp} (h : relOp t = some op) :
    t.rank = 4 := by
  unfold relOp at h
  split at h <;> first | rfl | cases h

theorem BinLevel.rank_operand (l : BinLevel) :
    l.operand.rank < (Level.bin l).rank := by
  cases l <;> decide

/-- `t` does not prolong what a level `k` has read. -/
def Stops (k : Level) (t : Token) : Prop := k.rank < t.rank

instance (k : Level) (t : Token) : Decidable (Stops k t) :=
  inferInstanceAs (Decidable (_ < _))

theorem Stops.op {l : BinLevel} {t : Token} (h : Stops (.bin l) t) :
    l.op t = none := by
  cases hop : l.op t with
  | none => rfl
  | some op => exact absurd (BinLevel.rank_of_op hop) (Nat.ne_of_gt h)

theorem Stops.operand {l : BinLevel} {t : Token} (h : Stops (.bin l) t) :
    Stops l.operand t := Nat.lt_trans l.rank_operand h

theorem stops_of_op {l : BinLevel} {t : Token} {op : BinOp}
    (h : l.op t = some op) : Stops l.operand t := by
  rw [Stops, BinLevel.rank_of_op h]
  exact l.rank_operand

theorem Stops.ne_bracket {k : Level} {t : Token} (h : Stops k t) :
    t ≠ .chr '[' := by
  rintro rfl
  cases k with
  | bin l => cases l <;> exact absurd h (by decide)
  | _ => exact absurd h (by decide)

/-! ## Expressions -/

/-- `f` reads every tree of its level. -/
def CompleteAt (k : Level) (f : P Expr) : Prop :=
  ∀ (t : ETree k) {rest : List Token} {sem sem' : Sem} {x : Expr},
    Stops k (rest.headD Token.eof) → t.perform sem = .ok (x, sem') →
    Parses f ⟨t.yield ++ rest, sem⟩ (x, ⟨rest, sem'⟩)

theorem binLoop_step {l : BinLevel} {operand : P Expr} {tok : Token}
    {op : BinOp} (h : l.op tok = some op) {fuel : Nat} {x y x' : Expr}
    {ts rest : List Token} {sem sem' : Sem} {r : Expr × PState}
    (hy : Parses operand ⟨ts, sem⟩ (y, ⟨rest, sem'⟩))
    (hnew : newBin op x y = .ok x')
    (hloop : Parses (binLoop l operand fuel x') ⟨rest, sem'⟩ r) :
    Parses (binLoop l operand (fuel + 1) x) ⟨tok :: ts, sem⟩ r := by
  rw [binLoop]
  refine parses_look (t := tok) rfl ?_
  rw [h]
  exact parses_move (hy.bind ((parses_lift hnew).bind hloop))

/-- The tokens of a tree take the loop on to where the tree ends, whatever
fuel is left then. -/
theorem binary_spine {l : BinLevel} {operand : P Expr}
    (ho : CompleteAt l.operand operand) {fuel : Nat} {r : Expr × PState}
    {rest : List Token} {sem sem' : Sem} {x : Expr} (t : ETree (.bin l))
    (hstop : Stops l.operand (rest.headD Token.eof))
    (hp : t.perform sem = .ok (x, sem'))
    (hloop : ∀ m, Parses (binLoop l operand m x) ⟨rest, sem'⟩ r) :
    Parses (binary l operand fuel) ⟨t.yield ++ rest, sem⟩ r :=
  match t, hp with
  | .operand _ y, hp => (ho y hstop hp).bind (hloop fuel)
  | .binary u tok op h y, hp => by
      obtain ⟨u', y', e₁, hu, hy, hnew⟩ := ETree.perform_binary.mp hp
      rw [ETree.yield, List.append_assoc]
      refine binary_spine ho u (stops_of_op h) hu fun m => ?_
      cases m with
      | zero => exact parses_outOfFuel
      | succ m => exact binLoop_step h (ho y hstop hy) hnew (hloop m)
termination_by sizeOf t

theorem binary_complete {l : BinLevel} {operand : P Expr}
    (ho : CompleteAt l.operand operand) (fuel : Nat) :
    CompleteAt (.bin l) (binary l operand fuel) := by
  intro t rest sem sem' x hstop hp
  refine binary_spine ho t hstop.operand hp fun m => ?_
  cases m with
  | zero => exact parses_outOfFuel
  | succ m =>
      rw [binLoop]
      refine parses_look rfl ?_
      rw [hstop.op]
      exact parses_pure

theorem rel_complete {fuel : Nat} (he : CompleteAt (.bin .expr) (expr fuel)) :
    CompleteAt .rel (rel (fuel + 1)) := by
  intro t rest sem sem' x hstop hp
  have hstop' : Stops (.bin .expr) (rest.headD Token.eof) :=
    Nat.lt_trans (by decide) hstop
  rw [rel]
  cases t with
  | plain y =>
      refine (he y hstop' hp).bind (parses_look rfl ?_)
      have hnone : relOp (rest.headD Token.eof) = none := by
        cases hop : relOp (rest.headD Token.eof) with
        | none => rfl
        | some op => exact absurd (rank_of_relOp hop) (Nat.ne_of_gt hstop)
      rw [hnone]
      exact parses_pure
  | relation u tok op h y =>
      obtain ⟨u', y', e₁, hu, hy, hnew⟩ := ETree.perform_relation.mp hp
      have hstopu : Stops (.bin .expr)
          ((tok :: (y.yield ++ rest)).headD Token.eof) := by
        show 3 < tok.rank
        rw [rank_of_relOp h]
        decide
      rw [ETree.yield, List.append_assoc]
      refine (he u hstopu hu).bind (parses_look (t := tok) rfl ?_)
      rw [h]
      exact parses_move ((he y hstop' hy).bind (parses_lift hnew))

/-- No factor starts like a unary operator. -/
theorem ETree.loc_head (t : ETree .loc) : ∃ w ts, t.yield = .id w :: ts := by
  match t with
  | .first w i => exact ⟨w, _, rfl⟩
  | .more x i =>
      obtain ⟨w, ts, hts⟩ := x.loc_head
      exact ⟨w, _, by rw [ETree.yield, hts]; rfl⟩

theorem ETree.factor_head (t : ETree .factor) : ∃ tok ts,
    t.yield = tok :: ts ∧ tok ≠ .chr '-' ∧ tok ≠ .chr '!' := by
  cases t with
  | paren x => exact ⟨_, _, rfl, by decide, by decide⟩
  | elem x =>
      obtain ⟨w, ts, hts⟩ := x.loc_head
      exact ⟨_, ts, hts, nofun, nofun⟩
  | _ => exact ⟨_, [], rfl, nofun, nofun⟩

theorem unary_complete {fuel : Nat} (hu : CompleteAt .unary (unary fuel))
    (hf : CompleteAt .factor (factor fuel)) :
    CompleteAt .unary (unary (fuel + 1)) := by
  intro t rest sem sem' x hstop hp
  rw [unary]
  cases t with
  | minus y =>
      obtain ⟨y', hy, hnew⟩ := ETree.perform_minus.mp hp
      refine parses_look (t := .chr '-') rfl ?_
      exact parses_move ((hu y hstop hy).bind (parses_lift hnew))
  | bang y =>
      obtain ⟨y', hy, hnew⟩ := ETree.perform_bang.mp hp
      refine parses_look (t := .chr '!') rfl ?_
      exact parses_move ((hu y hstop hy).bind (parses_lift hnew))
  | single y =>
      obtain ⟨tok, ts, hts, hminus, hbang⟩ := y.factor_head
      have hlook : ((ETree.single y).yield ++ rest).headD Token.eof = tok := by
        rw [ETree.yield, hts]
        rfl
      refine parses_look hlook ?_
      rw [if_neg hminus, if_neg hbang]
      exact hf y hstop hp

/-- A token that follows an expression as a whole. -/
def Ends (t : Token) : Prop := t.rank = 8

theorem Ends.stops {t : Token} (h : Ends t) (k : Level) : Stops k t := by
  rw [Stops, h]
  cases k with
  | bin l => cases l <;> decide
  | _ => decide

theorem subscript_complete {b : P Expr} (hb : CompleteAt (.bin .bool) b)
    {i : BoolTree} {i' t1 : Expr} {type type' : Ty} {rest : List Token}
    {sem sem' : Sem} (hi : i.perform sem = .ok (i', sem'))
    (hscale : scale i' type = .ok (t1, type')) :
    Parses (subscript b type)
      ⟨.chr '[' :: (i.yield ++ .chr ']' :: rest), sem⟩
      ((t1, type'), ⟨rest, sem'⟩) := by
  have hend : Ends (.chr ']') := rfl
  rw [subscript]
  exact parses_matchTok.bind ((hb i (hend.stops _) hi).bind
    (parses_matchTok.bind (parses_lift hscale)))

/-- The tokens of a location, after the identifier it starts with, take
`offset` to where the location ends. -/
theorem offset_spine (fuel : Nat) {b : P Expr}
    (hb : CompleteAt (.bin .bool) b) {a : Id} {loc : Expr} {type : Ty}
    {sem sem' : Sem} {rest : List Token} {r : (Expr × Ty) × PState}
    (t : ETree .loc)
    (hp : t.perform sem = .ok (.access a loc type, sem'))
    (hloop : ∀ m, Parses (offsetLoop b m loc type) ⟨rest, sem'⟩ r) :
    ∃ w ts sem₁, t.yield ++ rest = .id w :: .chr '[' :: ts ∧
      resolve w sem = .ok (a, sem₁) ∧
      Parses (do
        let (t1, type) ← subscript b a.type
        offsetLoop b fuel t1 type) ⟨.chr '[' :: ts, sem₁⟩ r :=
  match t, hp with
  | .first w i, hp => by
      obtain ⟨id, e₁, i', t1, type', hres, hi, hscale, heq⟩ :=
        ETree.perform_first.mp hp
      cases heq
      refine ⟨w, i.yield ++ .chr ']' :: rest, e₁, ?_, hres, ?_⟩
      · rw [ETree.yield]
        simp
      · exact (subscript_complete hb hi hscale).bind (hloop fuel)
  | .more x i, hp => by
      obtain ⟨id, loc', type', e₁, i', t1, type'', t2, hx, hi, hscale, hadd,
        heq⟩ := ETree.perform_more.mp hp
      cases heq
      rw [ETree.yield, List.append_assoc, List.append_assoc]
      refine offset_spine fuel hb x hx fun m => ?_
      cases m with
      | zero => exact parses_outOfFuel
      | succ m =>
          rw [offsetLoop]
          refine parses_look (t := .chr '[') rfl ?_
          rw [if_pos rfl]
          exact (subscript_complete hb hi hscale).bind
            ((parses_lift hadd).bind (hloop m))
termination_by sizeOf t

theorem offsetLoop_ends {b : P Expr} {loc : Expr} {type : Ty}
    {rest : List Token} {sem : Sem} (h : rest.headD Token.eof ≠ .chr '[')
    (m : Nat) : Parses (offsetLoop b m loc type) ⟨rest, sem⟩
      ((loc, type), ⟨rest, sem⟩) := by
  cases m with
  | zero => exact parses_outOfFuel
  | succ m =>
      rw [offsetLoop]
      refine parses_look rfl ?_
      rw [if_neg h]
      exact parses_pure

/-- `f` reads the rest of every location, after its identifier. -/
def OffsetComplete (f : Id → P (Expr × Ty)) : Prop :=
  ∀ (t : ETree .loc) {a : Id} {loc : Expr} {type : Ty} {sem sem' : Sem}
    {rest : List Token}, rest.headD Token.eof ≠ .chr '[' →
    t.perform sem = .ok (.access a loc type, sem') →
    ∃ w ts sem₁, t.yield ++ rest = .id w :: .chr '[' :: ts ∧
      resolve w sem = .ok (a, sem₁) ∧
      Parses (f a) ⟨.chr '[' :: ts, sem₁⟩ ((loc, type), ⟨rest, sem'⟩)

theorem offset_complete {fuel : Nat}
    (hb : CompleteAt (.bin .bool) (bool fuel)) :
    OffsetComplete (offset (fuel + 1)) := by
  intro t a loc type sem sem' rest hrest hp
  rw [offset]
  exact offset_spine fuel hb t hp (offsetLoop_ends hrest)

/-- The methods for expressions, with so much fuel. -/
structure ExprComplete (fuel : Nat) : Prop where
  bool : CompleteAt (.bin .bool) (bool fuel)
  join : CompleteAt (.bin .join) (join fuel)
  equality : CompleteAt (.bin .equality) (equality fuel)
  rel : CompleteAt .rel (rel fuel)
  expr : CompleteAt (.bin .expr) (expr fuel)
  term : CompleteAt (.bin .term) (term fuel)
  unary : CompleteAt .unary (unary fuel)
  factor : CompleteAt .factor (factor fuel)
  offset : OffsetComplete (offset fuel)

theorem factor_complete {fuel : Nat} (ih : ExprComplete fuel) :
    CompleteAt .factor (factor (fuel + 1)) := by
  intro t rest sem sem' x hstop hp
  rw [factor_succ]
  cases t with
  | paren y =>
      have hend : Ends (.chr ')') := rfl
      rw [ETree.yield, List.append_assoc]
      refine parses_look (t := .chr '(') rfl (parses_move ?_)
      exact (ih.bool y (hend.stops _) hp).bind
        (parses_matchTok.bind parses_pure)
  | num n =>
      cases hp
      exact .inl rfl
  | real r =>
      cases hp
      exact .inl rfl
  | true =>
      cases hp
      exact .inl rfl
  | false =>
      cases hp
      exact .inl rfl
  | var w =>
      obtain ⟨id, hres, rfl⟩ := ETree.perform_var.mp hp
      refine parses_look (t := .id w) rfl ?_
      refine (parses_act hres).bind (parses_move ?_)
      refine parses_look (t := rest.headD Token.eof) rfl ?_
      rw [if_pos hstop.ne_bracket]
      exact parses_pure
  | elem y =>
      obtain ⟨id, i, type, rfl⟩ := y.perform_access hp
      obtain ⟨w, ts, sem₁, hts, hres, hoff⟩ :=
        ih.offset y hstop.ne_bracket hp
      rw [ETree.yield, hts]
      refine parses_look (t := .id w) rfl ?_
      refine (parses_act hres).bind (parses_move (parses_look rfl ?_))
      exact hoff.bind parses_pure

theorem exprComplete : ∀ fuel : Nat, ExprComplete fuel := by
  intro fuel
  induction fuel with
  | zero =>
      have hout : ∀ k, CompleteAt k outOfFuel := by
        intro k t rest sem sem' x _ _
        exact parses_outOfFuel
      refine ⟨hout _, hout _, hout _, hout _, hout _, hout _, hout _, hout _,
        ?_⟩
      intro t a loc type sem sem' rest hrest hp
      obtain ⟨w, ts, sem₁, hts, hres, -⟩ :=
        offset_spine 0 (hout _) t hp (offsetLoop_ends hrest)
      exact ⟨w, ts, sem₁, hts, hres, parses_outOfFuel⟩
  | succ fuel ih =>
      exact {
        bool := binary_complete (l := .bool) ih.join fuel
        join := binary_complete (l := .join) ih.equality fuel
        equality := binary_complete (l := .equality) ih.rel fuel
        rel := rel_complete ih.expr
        expr := binary_complete (l := .expr) ih.term fuel
        term := binary_complete (l := .term) ih.unary fuel
        unary := unary_complete ih.unary ih.factor
        factor := factor_complete ih
        offset := offset_complete ih.bool }

/-! ## Declarations -/

theorem dims_complete {p : Ty} {rest : List Token} {sem : Sem}
    (hrest : rest.headD Token.eof ≠ .chr '[') : ∀ (fuel : Nat) (n : Num)
    (ns : List Num), Parses (dims fuel p)
      ⟨(n :: ns).flatMap dimTokens ++ rest, sem⟩
      ((n :: ns).foldr .array p, ⟨rest, sem⟩) := by
  intro fuel
  induction fuel with
  | zero => intro n ns; exact parses_outOfFuel
  | succ fuel ih =>
      intro n ns
      rw [dims, List.flatMap_cons, List.append_assoc]
      refine parses_matchTok.bind ?_
      refine parses_matchNum.bind ?_
      refine parses_matchTok.bind ?_
      cases ns with
      | nil =>
          refine parses_look (t := rest.headD Token.eof) rfl ?_
          rw [if_neg hrest]
          exact parses_pure
      | cons n' ns =>
          refine parses_look (t := .chr '[') rfl ?_
          rw [if_pos rfl]
          exact (ih n' ns).bind parses_pure

theorem type_complete {b : Basic} {ns : List Num} {rest : List Token}
    {sem : Sem} {fuel : Nat} (hrest : rest.headD Token.eof ≠ .chr '[') :
    Parses (type fuel) ⟨.basic b :: ns.flatMap dimTokens ++ rest, sem⟩
      (ns.foldr .array (.basic b), ⟨rest, sem⟩) := by
  rw [type]
  refine parses_matchBasic.bind ?_
  cases ns with
  | nil =>
      refine parses_look (t := rest.headD Token.eof) rfl ?_
      rw [if_pos hrest]
      exact parses_pure
  | cons n ns =>
      refine parses_look (t := .chr '[') rfl ?_
      rw [if_neg (not_not.mpr rfl)]
      exact dims_complete hrest fuel n ns

theorem declarators_complete {p : Ty} {rest : List Token} : ∀ (fuel : Nat)
    {w : Word} {more : List (Sep × Word)} {sem sem₁ sem' : Sem},
    declare w p sem = .ok ((), sem₁) →
    performMore p more sem₁ = .ok ((), sem') →
    Parses (declarators p fuel)
      ⟨.id w :: moreTokens more ++ .chr ';' :: rest, sem⟩
      ((), ⟨rest, sem'⟩) := by
  intro fuel
  induction fuel with
  | zero => intro w more sem sem₁ sem' _ _; exact parses_outOfFuel
  | succ fuel ih =>
      intro w more sem sem₁ sem' hd hm
      rw [declarators]
      refine parses_matchId.bind ?_
      refine (parses_act hd).bind ?_
      cases more with
      | nil =>
          cases hm
          refine parses_look (t := .chr ';') rfl ?_
          rw [if_pos rfl]
          exact parses_matchTok
      | cons q more =>
          obtain ⟨sep, w'⟩ := q
          obtain ⟨e₁, hd', hm'⟩ := performMore_cons.mp hm
          cases sep with
          | comma =>
              refine parses_look (t := .chr ',') rfl ?_
              rw [if_neg (by decide), if_neg (by decide)]
              exact parses_matchTok.bind (ih hd' hm')
          | assign =>
              refine parses_look (t := .chr '=') rfl ?_
              rw [if_neg (by decide), if_pos rfl]
              exact parses_matchTok.bind
                ((parses_act rfl).bind (ih hd' hm'))

/-- `t` does not start a declaration. -/
def NotBasic (t : Token) : Prop := ∀ b, t ≠ .basic b

theorem decls_complete {rest : List Token}
    (hrest : NotBasic (rest.headD Token.eof)) : ∀ (fuel : Nat)
    (ds : List Decl) {sem sem' : Sem},
    performDecls ds sem = .ok ((), sem') →
    Parses (decls fuel) ⟨ds.flatMap Decl.yield ++ rest, sem⟩
      ((), ⟨rest, sem'⟩) := by
  intro fuel
  induction fuel with
  | zero => intro ds sem sem' _; exact parses_outOfFuel
  | succ fuel ih =>
      intro ds sem sem' h
      rw [decls]
      cases ds with
      | nil =>
          cases h
          refine parses_look (t := rest.headD Token.eof) rfl ?_
          cases hl : rest.headD Token.eof with
          | basic b => exact absurd hl (hrest b)
          | _ => exact parses_pure
      | cons d ds =>
          obtain ⟨e₁, e₂, hf, hm, hds⟩ := performDecls_cons.mp h
          have hyield : (d :: ds).flatMap Decl.yield ++ rest =
              .basic d.basic :: d.dims.flatMap dimTokens ++
                (.id d.first :: moreTokens d.more ++
                  .chr ';' :: (ds.flatMap Decl.yield ++ rest)) := by
            rw [List.flatMap_cons, Decl.yield, moreTokens]
            simp
          rw [hyield]
          refine parses_look (t := .basic d.basic) rfl ?_
          have hid : ∀ ts, (Token.id d.first :: ts).headD Token.eof ≠
              .chr '[' := fun _ => by simp
          refine (type_complete (hid _)).bind ?_
          exact (declarators_complete fuel hf hm).bind (ih ds hds)

theorem declsIfAny_complete {rest : List Token}
    (hrest : NotBasic (rest.headD Token.eof)) {fuel : Nat} {ds : List Decl}
    {sem sem' : Sem} (h : performDecls ds sem = .ok ((), sem')) :
    Parses (declsIfAny fuel) ⟨ds.flatMap Decl.yield ++ rest, sem⟩
      ((), ⟨rest, sem'⟩) := by
  rw [declsIfAny]
  cases ds with
  | nil =>
      cases h
      refine parses_look (t := rest.headD Token.eof) rfl ?_
      cases hl : rest.headD Token.eof with
      | basic b => exact absurd hl (hrest b)
      | _ => exact parses_pure
  | cons d ds =>
      refine parses_look (t := .basic d.basic) ?_
        (decls_complete hrest fuel (d :: ds) h)
      rw [List.flatMap_cons, Decl.yield]
      rfl

/-! ## Statements -/

/-- The tree ends with an `if` that could still get an `else`. -/
def STree.open {k : SKind} : STree k → Bool
  | .ifThen _ _ => true
  | .ifElse _ _ s2 => s2.open
  | .whileDo _ s => s.open
  | _ => false

/-- Every `else` belongs to the nearest `if` without one. -/
def STree.Nearest {k : SKind} : STree k → Prop
  | .ifThen _ s => s.Nearest
  | .ifElse _ s1 s2 => s1.open = false ∧ s1.Nearest ∧ s2.Nearest
  | .whileDo _ s => s.Nearest
  | .doWhile s _ => s.Nearest
  | .block b => b.Nearest
  | .cons _ s rest => s.Nearest ∧ rest.Nearest
  | _ => True

/-- The tokens `rest` do not prolong `t`. -/
def STree.StopsAt {k : SKind} (t : STree k) (rest : List Token) : Prop :=
  t.open = true → rest.headD Token.eof ≠ .else

def CompleteStmt (f : P Stmt) : Prop :=
  ∀ (t : STree .stmt) {rest : List Token} {sem sem' : Sem} {x : Stmt},
    t.Nearest → t.StopsAt rest → t.perform sem = .ok (x, sem') →
    Parses f ⟨t.yield ++ rest, sem⟩ (x, ⟨rest, sem'⟩)

theorem assign_complete {fuel : Nat} {w : Word} {x : BoolTree} {r : Stmt}
    {rest : List Token} {sem sem' : Sem}
    (hp : (STree.assign w x).perform sem = .ok (r, sem')) :
    Parses (assign fuel) ⟨(STree.assign w x).yield ++ rest, sem⟩
      (r, ⟨rest, sem'⟩) := by
  obtain ⟨id, e₁, y, hres, hy, hset⟩ := STree.perform_assign.mp hp
  have hend : Ends (.chr ';') := rfl
  have hyield : (STree.assign w x).yield ++ rest =
      .id w :: .chr '=' :: (x.yield ++ .chr ';' :: rest) := by
    rw [STree.yield]
    simp
  rw [assign, hyield]
  refine parses_matchId.bind ((parses_act hres).bind ?_)
  refine Parses.bind (a := r) ?_ (parses_matchTok.bind parses_pure)
  rw [assignTo]
  refine parses_look (t := .chr '=') rfl ?_
  rw [if_pos rfl]
  exact parses_move (((exprComplete fuel).bool x (hend.stops _) hy).bind
    (parses_lift (newSet_ok.mpr hset)))

theorem assignElem_complete {fuel : Nat} {loc : ETree .loc} {x : BoolTree}
    {r : Stmt} {rest : List Token} {sem sem' : Sem}
    (hp : (STree.assignElem loc x).perform sem = .ok (r, sem')) :
    Parses (assign fuel) ⟨(STree.assignElem loc x).yield ++ rest, sem⟩
      (r, ⟨rest, sem'⟩) := by
  obtain ⟨id, i, type, e₁, y, hloc, hy, hset⟩ :=
    STree.perform_assignElem.mp hp
  have hend : Ends (.chr ';') := rfl
  have heq : ∀ ts, (Token.chr '=' :: ts).headD Token.eof ≠ .chr '[' := by
    intro ts
    show Token.chr '=' ≠ .chr '['
    decide
  obtain ⟨w, ts, sem₁, hts, hres, hoff⟩ := (exprComplete fuel).offset loc
    (heq (x.yield ++ .chr ';' :: rest)) hloc
  have hyield : (STree.assignElem loc x).yield ++ rest =
      .id w :: .chr '[' :: ts := by
    rw [← hts, STree.yield]
    simp
  rw [assign, hyield]
  refine parses_matchId.bind ((parses_act hres).bind ?_)
  refine Parses.bind (a := r) ?_ (parses_matchTok.bind parses_pure)
  rw [assignTo]
  refine parses_look (t := .chr '[') rfl ?_
  rw [if_neg (by decide)]
  refine hoff.bind (parses_matchTok.bind ?_)
  exact ((exprComplete fuel).bool x (hend.stops _) hy).bind
    (parses_lift (newSetElem_ok.mpr hset))

theorem ifStmt_complete {b : P Expr} {f : P Stmt}
    (hb : CompleteAt (.bin .bool) b) (hf : CompleteStmt f) {c : BoolTree}
    {s : STree .stmt} {r : Stmt} {rest : List Token} {sem sem' : Sem}
    (hs : s.Nearest) (helse : rest.headD Token.eof ≠ .else)
    (hp : (STree.ifThen c s).perform sem = .ok (r, sem')) :
    Parses (ifStmt b f) ⟨(STree.ifThen c s).yield ++ rest, sem⟩
      (r, ⟨rest, sem'⟩) := by
  obtain ⟨x, e₁, s1, hx, hs1, hnew⟩ := STree.perform_ifThen.mp hp
  have hend : Ends (.chr ')') := rfl
  have hyield : (STree.ifThen c s).yield ++ rest =
      .if :: .chr '(' :: (c.yield ++ .chr ')' :: (s.yield ++ rest)) := by
    rw [STree.yield]
    simp
  rw [ifStmt, hyield]
  refine parses_matchTok.bind (parses_matchTok.bind ?_)
  refine (hb c (hend.stops _) hx).bind (parses_matchTok.bind ?_)
  refine (hf s hs (fun _ => helse) hs1).bind (parses_look rfl ?_)
  rw [if_pos helse]
  exact parses_lift (condition_ok.mpr hnew)

theorem ifElse_complete {b : P Expr} {f : P Stmt}
    (hb : CompleteAt (.bin .bool) b) (hf : CompleteStmt f) {c : BoolTree}
    {t1 t2 : STree .stmt} {r : Stmt} {rest : List Token} {sem sem' : Sem}
    (hnear : (STree.ifElse c t1 t2).Nearest) (hstop : t2.StopsAt rest)
    (hp : (STree.ifElse c t1 t2).perform sem = .ok (r, sem')) :
    Parses (ifStmt b f) ⟨(STree.ifElse c t1 t2).yield ++ rest, sem⟩
      (r, ⟨rest, sem'⟩) := by
  obtain ⟨x, e₁, s1, e₂, s2, hx, hs1, hs2, hnew⟩ :=
    STree.perform_ifElse.mp hp
  obtain ⟨hclosed, h1, h2⟩ := hnear
  have hend : Ends (.chr ')') := rfl
  have hstop1 : t1.StopsAt (.else :: (t2.yield ++ rest)) := by
    intro hopen
    rw [hclosed] at hopen
    cases hopen
  have hyield : (STree.ifElse c t1 t2).yield ++ rest =
      .if :: .chr '(' :: (c.yield ++ .chr ')' ::
        (t1.yield ++ .else :: (t2.yield ++ rest))) := by
    rw [STree.yield]
    simp
  rw [ifStmt, hyield]
  refine parses_matchTok.bind (parses_matchTok.bind ?_)
  refine (hb c (hend.stops _) hx).bind (parses_matchTok.bind ?_)
  refine (hf t1 h1 hstop1 hs1).bind (parses_look (t := .else) rfl ?_)
  rw [if_neg (not_not.mpr rfl)]
  refine parses_matchTok.bind ((hf t2 h2 hstop hs2).bind ?_)
  exact parses_lift (condition_ok.mpr hnew)

theorem whileStmt_complete {b : P Expr} {f : P Stmt}
    (hb : CompleteAt (.bin .bool) b) (hf : CompleteStmt f) {c : BoolTree}
    {s : STree .stmt} {r : Stmt} {rest : List Token} {sem sem' : Sem}
    (hs : s.Nearest) (hstop : s.StopsAt rest)
    (hp : (STree.whileDo c s).perform sem = .ok (r, sem')) :
    Parses (whileStmt b f) ⟨(STree.whileDo c s).yield ++ rest, sem⟩
      (r, ⟨rest, sem'⟩) := by
  obtain ⟨x, e₁, s1, e₂, hx, hs1, hbool, rfl, rfl⟩ :=
    STree.perform_whileDo.mp hp
  have hend : Ends (.chr ')') := rfl
  have hyield : (STree.whileDo c s).yield ++ rest =
      .while :: .chr '(' :: (c.yield ++ .chr ')' :: (s.yield ++ rest)) := by
    rw [STree.yield]
    simp
  have henter : enterLoop sem = .ok ((sem.loops, sem.enclosing),
      sem.entered) := rfl
  have hleave : leaveLoop sem.enclosing e₂ = .ok ((), sem.left e₂) := rfl
  rw [whileStmt, hyield]
  refine (parses_act henter).bind ?_
  refine parses_matchTok.bind (parses_matchTok.bind ?_)
  refine (hb c (hend.stops _) hx).bind (parses_matchTok.bind ?_)
  refine (hf s hs hstop hs1).bind ?_
  refine (parses_lift (condition_ok.mpr ⟨hbool, rfl⟩)).bind ?_
  exact (parses_act hleave).bind parses_pure

theorem doStmt_complete {b : P Expr} {f : P Stmt}
    (hb : CompleteAt (.bin .bool) b) (hf : CompleteStmt f) {c : BoolTree}
    {s : STree .stmt} {r : Stmt} {rest : List Token} {sem sem' : Sem}
    (hs : s.Nearest)
    (hp : (STree.doWhile s c).perform sem = .ok (r, sem')) :
    Parses (doStmt b f) ⟨(STree.doWhile s c).yield ++ rest, sem⟩
      (r, ⟨rest, sem'⟩) := by
  obtain ⟨s1, e₁, x, e₂, hs1, hx, hbool, rfl, rfl⟩ :=
    STree.perform_doWhile.mp hp
  have hend : Ends (.chr ')') := rfl
  have hstop : ∀ ts, s.StopsAt (.while :: ts) := fun _ _ => nofun
  have hyield : (STree.doWhile s c).yield ++ rest =
      .do :: (s.yield ++ .while :: .chr '(' ::
        (c.yield ++ .chr ')' :: .chr ';' :: rest)) := by
    rw [STree.yield]
    simp
  have henter : enterLoop sem = .ok ((sem.loops, sem.enclosing),
      sem.entered) := rfl
  have hleave : leaveLoop sem.enclosing e₂ = .ok ((), sem.left e₂) := rfl
  rw [doStmt, hyield]
  refine (parses_act henter).bind (parses_matchTok.bind ?_)
  refine (hf s hs (hstop _) hs1).bind ?_
  refine parses_matchTok.bind (parses_matchTok.bind ?_)
  refine (hb c (hend.stops _) hx).bind ?_
  refine parses_matchTok.bind (parses_matchTok.bind ?_)
  refine (parses_lift (condition_ok.mpr ⟨hbool, rfl⟩)).bind ?_
  exact (parses_act hleave).bind parses_pure

/-! ## Blocks -/

/-- The token a statement starts with starts nothing else. -/
theorem STree.stmt_head (t : STree .stmt) : ∃ tok ts, t.yield = tok :: ts ∧
    NotBasic tok ∧ tok ≠ .chr '}' ∧ tok ≠ .else := by
  cases t with
  | empty => exact ⟨_, _, rfl, by simp [NotBasic], by decide, by simp⟩
  | block b => exact ⟨_, _, rfl, by simp [NotBasic], by decide, by simp⟩
  | assignElem loc x =>
      obtain ⟨w, ts, hts⟩ := loc.loc_head
      refine ⟨.id w, ts ++ .chr '=' :: x.yield ++ [.chr ';'], ?_,
        by simp [NotBasic], by simp, by simp⟩
      rw [STree.yield, hts]
      rfl
  | _ => exact ⟨_, _, rfl, by simp [NotBasic], by simp, by simp⟩

/-- After a statement of a block there is no `else`. -/
theorem STree.stmts_head (t : STree .stmts) (rest : List Token) :
    (t.yield ++ .chr '}' :: rest).headD Token.eof ≠ .else := by
  cases t with
  | done ds =>
      cases ds with
      | nil => simp [STree.yield]
      | cons d ds => simp [STree.yield, Decl.yield]
  | cons ds s b =>
      cases ds with
      | nil =>
          obtain ⟨tok, ts, hts, -, -, helse⟩ := s.stmt_head
          rw [STree.yield, hts]
          exact helse
      | cons d ds => simp [STree.yield, Decl.yield]

def CompleteStmts (f : P Stmt) : Prop :=
  ∀ (t : STree .stmts) {rest : List Token} {sem sem' : Sem} {x : Stmt},
    t.Nearest → t.perform sem = .ok (x, sem') →
    Parses f ⟨t.yield ++ .chr '}' :: rest, sem⟩
      (x, ⟨.chr '}' :: rest, sem'⟩)

def CompleteBlock (f : P Stmt) : Prop :=
  ∀ (b : STree .stmts) {rest : List Token} {sem sem' : Sem} {x : Stmt},
    b.Nearest → (STree.block b).perform sem = .ok (x, sem') →
    Parses f ⟨(STree.block b).yield ++ rest, sem⟩ (x, ⟨rest, sem'⟩)

/-- The methods for statements, with so much fuel. -/
structure StmtComplete (fuel : Nat) : Prop where
  block : CompleteBlock (block false fuel)
  stmts : CompleteStmts (stmts fuel)
  stmt : CompleteStmt (stmt fuel)

theorem stmts_complete {fuel : Nat} (ih : StmtComplete fuel) :
    CompleteStmts (stmts (fuel + 1)) := by
  intro t rest sem sem' x hnear hp
  rw [stmts]
  cases t with
  | done ds =>
      obtain ⟨hds, rfl⟩ := STree.perform_done.mp hp
      have hend : NotBasic ((Token.chr '}' :: rest).headD Token.eof) := by
        simp [NotBasic]
      refine (declsIfAny_complete hend hds).bind ?_
      refine parses_look (t := .chr '}') rfl ?_
      rw [if_pos rfl]
      exact parses_pure
  | cons ds s b =>
      obtain ⟨e₁, s1, e₂, s2, hds, hs, hb, rfl⟩ := STree.perform_cons.mp hp
      obtain ⟨tok, ts, hts, hbasic, hclose, -⟩ := s.stmt_head
      have hlook : (s.yield ++ (b.yield ++ .chr '}' :: rest)).headD
          Token.eof = tok := by
        rw [hts]
        rfl
      have hyield : (STree.cons ds s b).yield ++ .chr '}' :: rest =
          ds.flatMap Decl.yield ++
            (s.yield ++ (b.yield ++ .chr '}' :: rest)) := by
        rw [STree.yield]
        simp
      rw [hyield]
      refine (declsIfAny_complete (hlook ▸ hbasic) hds).bind ?_
      refine parses_look hlook ?_
      rw [if_neg hclose]
      refine (ih.stmt s hnear.1 (fun _ => b.stmts_head rest) hs).bind ?_
      exact (ih.stmts b hnear.2 hb).bind parses_pure

theorem STree.yield_block (b : STree .stmts) (rest : List Token) :
    (STree.block b).yield ++ rest =
      .chr '{' :: (b.yield ++ .chr '}' :: rest) := by
  rw [STree.yield]
  simp

theorem block_complete {fuel : Nat} (hs : CompleteStmts (stmts fuel)) :
    CompleteBlock (block false (fuel + 1)) := by
  intro b rest sem sem' x hnear hp
  obtain ⟨e₁, hb, rfl⟩ := STree.perform_block.mp hp
  have hopen : openEnv sem = .ok (sem.top, sem.opened) := rfl
  have hclose : closeEnv sem.top e₁ = .ok ((), sem.closed e₁) := rfl
  rw [block, STree.yield_block]
  refine parses_matchTok.bind ((parses_act hopen).bind ?_)
  refine (hs b hnear hb).bind (parses_matchTok.bind ?_)
  exact (parses_act hclose).bind parses_pure

/-- The block of a program: its closing brace stays unread. -/
theorem blockOuter_complete {fuel : Nat} (hs : CompleteStmts (stmts fuel))
    {b : STree .stmts} {x : Stmt} {rest : List Token} {sem sem' : Sem}
    (hnear : b.Nearest) (hp : (STree.block b).perform sem = .ok (x, sem')) :
    Parses (block true (fuel + 1))
      ⟨.chr '{' :: (b.yield ++ .chr '}' :: rest), sem⟩
      (x, ⟨.chr '}' :: rest, sem'⟩) := by
  obtain ⟨e₁, hb, rfl⟩ := STree.perform_block.mp hp
  have hopen : openEnv sem = .ok (sem.top, sem.opened) := rfl
  have hclose : closeEnv sem.top e₁ = .ok ((), sem.closed e₁) := rfl
  have hlook : Parses (blockEnd true) ⟨.chr '}' :: rest, e₁⟩
      ((), ⟨.chr '}' :: rest, e₁⟩) := .inl rfl
  rw [block]
  refine parses_matchTok.bind ((parses_act hopen).bind ?_)
  refine (hs b hnear hb).bind (hlook.bind ?_)
  exact (parses_act hclose).bind parses_pure

theorem stmt_complete {fuel : Nat} (ih : StmtComplete fuel) :
    CompleteStmt (stmt (fuel + 1)) := by
  intro t rest sem sem' x hnear hstop hp
  have hbool := (exprComplete fuel).bool
  rw [stmt_succ]
  cases t with
  | empty =>
      cases hp
      exact .inl rfl
  | ifThen c s =>
      refine parses_look (t := .if) rfl ?_
      exact ifStmt_complete hbool ih.stmt hnear (hstop rfl) hp
  | ifElse c s1 s2 =>
      refine parses_look (t := .if) rfl ?_
      exact ifElse_complete hbool ih.stmt hnear hstop hp
  | whileDo c s =>
      refine parses_look (t := .while) rfl ?_
      exact whileStmt_complete hbool ih.stmt hnear hstop hp
  | doWhile s c =>
      refine parses_look (t := .do) rfl ?_
      exact doStmt_complete hbool ih.stmt hnear hp
  | «break» =>
      refine parses_look (t := .break) rfl ?_
      exact parses_matchTok.bind (parses_matchTok.bind (parses_act hp))
  | «continue» =>
      refine parses_look (t := .continue) rfl ?_
      exact parses_matchTok.bind (parses_matchTok.bind (parses_act hp))
  | block b =>
      refine parses_look (t := .chr '{') rfl ?_
      exact ih.block b hnear hp
  | assign w y =>
      refine parses_look (t := .id w) rfl ?_
      exact assign_complete hp
  | assignElem loc y =>
      obtain ⟨w, ts, hts⟩ := loc.loc_head
      have hlook : ((STree.assignElem loc y).yield ++ rest).headD
          Token.eof = .id w := by
        rw [STree.yield, hts]
        rfl
      refine parses_look hlook ?_
      exact assignElem_complete hp

theorem stmtComplete : ∀ fuel : Nat, StmtComplete fuel := by
  intro fuel
  induction fuel with
  | zero =>
      constructor
      · intro b rest sem sem' x _ _
        exact parses_outOfFuel
      · intro t rest sem sem' x _ _
        exact parses_outOfFuel
      · intro t rest sem sem' x _ _ _
        exact parses_outOfFuel
  | succ fuel ih =>
      exact ⟨block_complete ih.stmts, stmts_complete ih, stmt_complete ih⟩

/-! ## Programs -/

/-- A block whose actions succeed is an accepted program, whatever follows
it. -/
theorem program_complete {b : STree .stmts} {x : Stmt} {sem : Sem}
    (rest : List Token) (hnear : b.Nearest)
    (hp : (STree.block b).perform Sem.init = .ok (x, sem)) :
    ∃ o, program ((STree.block b).yield ++ rest) = .ok o := by
  rw [STree.yield_block]
  generalize htoks : Token.chr '{' :: (b.yield ++ .chr '}' :: rest) = toks
  have hblock : Parses (block true (enoughFuel toks)) ⟨toks, Sem.init⟩
      (x, ⟨.chr '}' :: rest, sem⟩) := by
    rw [← htoks]
    exact blockOuter_complete (stmtComplete _).stmts hnear hp
  obtain ⟨ho, -⟩ | ⟨e, -, he⟩ := program_eq_block toks
  · exact ho
  · rcases hblock with hok | hout
    · rw [hok] at he
      cases he
    · exact absurd hout (block_enough toks (Nat.le_refl _))

end LearningLinux.FrontEnd
