import LearningLinux.FrontEnd.Accepted
import LearningLinux.FrontEnd.ParserComplete

/-!
# Printed expressions

A tree is written down with its operators between the operands, and a
subtree may do without parentheses where the precedence of its operator
allows: on the left of an operator that is its own, on the right of one that
is looser, and on neither side of a comparison that is a comparison itself.
More parentheses than that may always be set (`Prints`).

The levels of the grammar are the precedences, and a printed tree is the
yield of a parse tree at each level that is no tighter. So the parser reads
it, and what its actions make of it is the tree that was printed.
-/

namespace LearningLinux.FrontEnd

/-! ## Precedences -/

/-- How tight the operators of a level bind: 3 is `rel`, 6 the unary
operators. -/
def BinLevel.prec : BinLevel → Nat
  | .bool => 0
  | .join => 1
  | .equality => 2
  | .expr => 4
  | .term => 5

/-- The node of an operator. -/
def BinOp.node : BinOp → Expr → Expr → Expr
  | .or, x, y => .or x y
  | .and, x, y => .and x y
  | .rel op, x, y => .rel op x y
  | .arith op, x, y => .arith op x y

/-- `ts` is a way to write `x` where operators from the precedence `p` on may
stand without parentheses. -/
inductive Prints : Nat → Expr → List Token → Prop where
  | paren {p : Nat} {x : Expr} {ts : List Token} (h : Prints 0 x ts) :
      Prints p x (.chr '(' :: ts ++ [Token.chr ')'])
  | binary {p : Nat} {l : BinLevel} {tok : Token} {op : BinOp} {x y : Expr}
      {xs ys : List Token} (hp : p ≤ l.prec) (hop : l.op tok = some op)
      (hx : Prints l.prec x xs) (hy : Prints (l.prec + 1) y ys) :
      Prints p (op.node x y) (xs ++ tok :: ys)
  | relation {p : Nat} {tok : Token} {op : RelOp} {x y : Expr}
      {xs ys : List Token} (hp : p ≤ 3) (hop : relOp tok = some op)
      (hx : Prints 4 x xs) (hy : Prints 4 y ys) :
      Prints p (.rel op x y) (xs ++ tok :: ys)
  | minus {p : Nat} {x : Expr} {ts : List Token} (hp : p ≤ 6)
      (h : Prints 6 x ts) : Prints p (.unary x) (.chr '-' :: ts)
  | bang {p : Nat} {x : Expr} {ts : List Token} (hp : p ≤ 6)
      (h : Prints 6 x ts) : Prints p (.not x) (.chr '!' :: ts)
  | num {p : Nat} (n : Num) : Prints p (.const (.num n.value)) [.num n]
  | real {p : Nat} (r : Real) : Prints p (.const (.real r)) [.real r]
  | true {p : Nat} : Prints p (.const .true) [.true]
  | false {p : Nat} : Prints p (.const .false) [.false]
  | name {p : Nat} (i : Id) : Prints p (.id i) [.id i.word]

/-- A tree of operators over literals and the names that `top` declares. -/
def Expr.Over (top : Env) : Expr → Prop
  | .id i => top.get i.word = some i
  | .temp _ _ => False
  | .const (.num v) => ∃ n : Num, n.value = v
  | .const _ => True
  | .arith _ x y => x.Over top ∧ y.Over top
  | .unary x => x.Over top
  | .access _ _ _ => False
  | .or x y => x.Over top ∧ y.Over top
  | .and x y => x.Over top ∧ y.Over top
  | .not x => x.Over top
  | .rel _ x y => x.Over top ∧ y.Over top

/-! ## With as few parentheses as possible -/

def ArithOp.level : ArithOp → BinLevel
  | .add => .expr
  | .sub => .expr
  | .mul => .term
  | .div => .term

def ArithOp.token : ArithOp → Token
  | .add => .chr '+'
  | .sub => .chr '-'
  | .mul => .chr '*'
  | .div => .chr '/'

def RelOp.token : RelOp → Token
  | .eq => .eq
  | .ne => .ne
  | .lt => .chr '<'
  | .le => .le
  | .ge => .ge
  | .gt => .chr '>'

theorem toNat_bmod {n : Nat} (hn : 0 < n) (v : Int) :
    Int.bmod (v % n).toNat n = Int.bmod v n := by
  have hnonneg : 0 ≤ v % n := Int.emod_nonneg v (by omega)
  rw [Int.toNat_of_nonneg hnonneg, Int.emod_bmod]

/-- A literal with the value `v`, if there is one. -/
def Num.spell (v : Int) : Num where
  value := wrap v
  lit := (v % (2 ^ 32 : Nat)).toNat
  value_eq := (toNat_bmod (by decide) v).symm

/-- Something of precedence `q`, where `p` is asked for. -/
def enclose (p q : Nat) (ts : List Token) : List Token :=
  if p ≤ q then ts else Token.chr '(' :: ts ++ [Token.chr ')']

def Expr.print : Nat → Expr → List Token
  | _, .id i => [.id i.word]
  | _, .temp _ _ => []
  | _, .const (.num v) => [.num (Num.spell v)]
  | _, .const (.real r) => [.real r]
  | _, .const .true => [.true]
  | _, .const .false => [.false]
  | p, .arith op x y =>
      enclose p op.level.prec
        (x.print op.level.prec ++ op.token :: y.print (op.level.prec + 1))
  | p, .unary x => enclose p 6 (.chr '-' :: x.print 6)
  | _, .access _ _ _ => []
  | p, .or x y => enclose p 0 (x.print 0 ++ .or :: y.print 1)
  | p, .and x y => enclose p 1 (x.print 1 ++ .and :: y.print 2)
  | p, .not x => enclose p 6 (.chr '!' :: x.print 6)
  | p, .rel op x y =>
      if op = .eq ∨ op = .ne then
        enclose p 2 (x.print 2 ++ op.token :: y.print 3)
      else enclose p 3 (x.print 4 ++ op.token :: y.print 4)

theorem Prints.enclose {p q : Nat} {x : Expr} {ts : List Token}
    (h : ∀ p', p' ≤ q → Prints p' x ts) : Prints p x (enclose p q ts) := by
  rw [FrontEnd.enclose]
  split
  · next hp => exact h p hp
  · exact .paren (h 0 (Nat.zero_le q))

theorem Num.spell_value (n : Num) : (Num.spell n.value).value = n.value := by
  show wrap n.value = n.value
  rw [n.value_eq]
  exact Int.bmod_bmod

/-- Every tree of the language can be written. -/
theorem Expr.print_prints {top : Env} {x : Expr} (h : x.Over top) :
    ∀ p, Prints p x (x.print p) := by
  induction x with
  | id i => intro p; exact .name i
  | temp _ _ => cases h
  | const c =>
      intro p
      cases c with
      | num v =>
          obtain ⟨n, rfl⟩ := h
          have hprint := @Prints.num p (Num.spell n.value)
          rw [n.spell_value] at hprint
          exact hprint
      | real r => exact .real r
      | true => exact .true
      | false => exact .false
  | arith op x y ihx ihy =>
      intro p
      have hop : op.level.op op.token = some (.arith op) := by
        cases op <;> rfl
      exact .enclose fun p' hp => .binary hp hop (ihx h.1 _) (ihy h.2 _)
  | unary x ih =>
      intro p
      exact .enclose fun p' hp => .minus hp (ih h _)
  | access _ _ _ => cases h
  | or x y ihx ihy =>
      intro p
      exact .enclose fun p' hp =>
        @Prints.binary p' .bool .or .or x y _ _ hp rfl (ihx h.1 _) (ihy h.2 _)
  | and x y ihx ihy =>
      intro p
      exact .enclose fun p' hp =>
        @Prints.binary p' .join .and .and x y _ _ hp rfl (ihx h.1 _)
          (ihy h.2 _)
  | not x ih =>
      intro p
      exact .enclose fun p' hp => .bang hp (ih h _)
  | rel op x y ihx ihy =>
      intro p
      rw [Expr.print]
      split
      · next heq =>
          have hop : BinLevel.equality.op op.token = some (.rel op) := by
            rcases heq with rfl | rfl <;> rfl
          exact .enclose fun p' hp => .binary hp hop (ihx h.1 _) (ihy h.2 _)
      · next hne =>
          have hop : relOp op.token = some op := by
            cases op with
            | eq => exact absurd (Or.inl rfl) hne
            | ne => exact absurd (Or.inr rfl) hne
            | _ => rfl
          exact .enclose fun p' hp => .relation hp hop (ihx h.1 _) (ihy h.2 _)

/-! ## Parse trees of printed expressions -/

/-- The nonterminal of each precedence. -/
def levelAt : Nat → Level
  | 0 => .bin .bool
  | 1 => .bin .join
  | 2 => .bin .equality
  | 3 => .rel
  | 4 => .bin .expr
  | 5 => .bin .term
  | 6 => .unary
  | _ => .factor

/-- At level `k` the tokens `ts` are derived, and the actions make `x` of
them. -/
def Derives (k : Level) (ts : List Token) (x : Expr) (e e' : Sem) : Prop :=
  ∃ t : ETree k, t.yield = ts ∧ t.perform e = .ok (x, e')

variable {k : Level} {ts xs ys : List Token} {x y : Expr} {e e' e'' : Sem}

/-- What is derived at a level is derived at the next looser one. -/
theorem Derives.looser {p : Nat} (h : Derives (levelAt (p + 1)) ts x e e') :
    Derives (levelAt p) ts x e e' := by
  obtain ⟨t, hyield, hperform⟩ := h
  match p, t, hyield, hperform with
  | 0, t, hyield, hperform => exact ⟨.operand .bool t, hyield, hperform⟩
  | 1, t, hyield, hperform => exact ⟨.operand .join t, hyield, hperform⟩
  | 2, t, hyield, hperform => exact ⟨.operand .equality t, hyield, hperform⟩
  | 3, t, hyield, hperform => exact ⟨.plain t, hyield, hperform⟩
  | 4, t, hyield, hperform => exact ⟨.operand .expr t, hyield, hperform⟩
  | 5, t, hyield, hperform => exact ⟨.operand .term t, hyield, hperform⟩
  | 6, t, hyield, hperform => exact ⟨.single t, hyield, hperform⟩
  | _ + 7, t, hyield, hperform => exact ⟨t, hyield, hperform⟩

theorem Derives.loosen {p q : Nat} (hpq : p ≤ q)
    (h : Derives (levelAt q) ts x e e') : Derives (levelAt p) ts x e e' := by
  induction hpq with
  | refl => exact h
  | step _ ih => exact ih h.looser

theorem levelAt_prec (l : BinLevel) : levelAt l.prec = .bin l := by
  cases l <;> rfl

theorem levelAt_operand (l : BinLevel) :
    levelAt (l.prec + 1) = l.operand := by
  cases l <;> rfl

/-- A node of a well-typed tree passes the test of its constructor. -/
theorem newBin_wellTyped {op : BinOp} (h : (op.node x y).WellTyped) :
    x.WellTyped ∧ y.WellTyped ∧ newBin op x y = .ok (op.node x y) := by
  cases op with
  | or =>
      obtain ⟨hx, hy, htypes⟩ := h
      exact ⟨hx, hy, typed_ok.mpr ⟨rfl, logicalCheck_ne_none.mpr htypes⟩⟩
  | and =>
      obtain ⟨hx, hy, htypes⟩ := h
      exact ⟨hx, hy, typed_ok.mpr ⟨rfl, logicalCheck_ne_none.mpr htypes⟩⟩
  | rel op =>
      obtain ⟨hx, hy, htypes⟩ := h
      exact ⟨hx, hy, typed_ok.mpr ⟨rfl, htypes⟩⟩
  | arith op =>
      obtain ⟨hx, hy, htypes⟩ := h
      exact ⟨hx, hy, typed_ok.mpr ⟨rfl, Ty.max_ne_none.mpr htypes⟩⟩

theorem BinOp.node_over {op : BinOp} {top : Env} :
    (op.node x y).Over top ↔ x.Over top ∧ y.Over top := by
  cases op <;> exact Iff.rfl

/-- A factor stands anywhere. -/
theorem Derives.factor (h : Derives .factor ts x e e') (p : Nat) :
    Derives (levelAt p) ts x e e' := by
  rcases Nat.lt_or_ge p 8 with hp | hp
  · exact Derives.loosen (q := 7) (Nat.le_of_lt_succ hp) h
  · obtain ⟨n, rfl⟩ := Nat.exists_eq_add_of_le' hp
    exact h

/-- What is printed is derived at the level of its context, and the actions
leave the names as they are. -/
theorem Prints.derives {p : Nat} (h : Prints p x ts) :
    ∀ {e : Sem}, x.WellTyped → x.Over e.top →
      ∃ e', Derives (levelAt p) ts x e e' := by
  induction h with
  | paren h ih =>
      intro e hw hover
      obtain ⟨e', t, rfl, ht⟩ := ih hw hover
      exact ⟨e', Derives.factor ⟨.paren t, rfl, ht⟩ _⟩
  | @binary p l tok op x y xs ys hp hop hx hy ihx ihy =>
      intro e hw hover
      obtain ⟨hwx, hwy, hnew⟩ := newBin_wellTyped hw
      obtain ⟨hox, hoy⟩ := BinOp.node_over.mp hover
      obtain ⟨e₁, hdx⟩ := ihx hwx hox
      rw [levelAt_prec] at hdx
      obtain ⟨t, rfl, ht⟩ := hdx
      have htop := (t.perform_wellTyped ht).2.top
      obtain ⟨e₂, hdy⟩ := ihy hwy (e := e₁) (htop ▸ hoy)
      rw [levelAt_operand] at hdy
      obtain ⟨u, rfl, hu⟩ := hdy
      have hnode : Derives (levelAt l.prec) (t.yield ++ tok :: u.yield)
          (op.node x y) e e₂ := by
        rw [levelAt_prec]
        exact ⟨.binary t tok op hop u, rfl,
          ETree.perform_binary.mpr ⟨x, y, e₁, ht, hu, hnew⟩⟩
      exact ⟨e₂, hnode.loosen hp⟩
  | @relation p tok op x y xs ys hp hop hx hy ihx ihy =>
      intro e hw hover
      obtain ⟨hwx, hwy, hcheck⟩ := hw
      obtain ⟨e₁, t, rfl, ht⟩ := ihx hwx hover.1
      have htop := (ETree.perform_wellTyped t ht).2.top
      obtain ⟨e₂, u, rfl, hu⟩ := ihy hwy (e := e₁) (htop ▸ hover.2)
      have hnew : newRel op x y = .ok (.rel op x y) :=
        typed_ok.mpr ⟨rfl, hcheck⟩
      have hnode : Derives .rel (t.yield ++ tok :: u.yield) (.rel op x y)
          e e₂ := ⟨.relation t tok op hop u, rfl,
        ETree.perform_relation.mpr ⟨x, y, e₁, ht, hu, hnew⟩⟩
      exact ⟨e₂, Derives.loosen (q := 3) hp hnode⟩
  | @minus p x ts hp h ih =>
      intro e hw hover
      obtain ⟨e', t, rfl, ht⟩ := ih hw.1 hover
      have hnew : newUnary x = .ok (.unary x) :=
        typed_ok.mpr ⟨rfl, Ty.max_ne_none.mpr ⟨rfl, hw.2⟩⟩
      have hnode : Derives .unary (.chr '-' :: t.yield) (.unary x) e e' :=
        ⟨.minus t, rfl, ETree.perform_minus.mpr ⟨x, ht, hnew⟩⟩
      exact ⟨e', Derives.loosen (q := 6) hp hnode⟩
  | @bang p x ts hp h ih =>
      intro e hw hover
      obtain ⟨e', t, rfl, ht⟩ := ih hw.1 hover
      have hnew : newNot x = .ok (.not x) :=
        typed_ok.mpr ⟨rfl, logicalCheck_ne_none.mpr ⟨hw.2, hw.2⟩⟩
      have hnode : Derives .unary (.chr '!' :: t.yield) (.not x) e e' :=
        ⟨.bang t, rfl, ETree.perform_bang.mpr ⟨x, ht, hnew⟩⟩
      exact ⟨e', Derives.loosen (q := 6) hp hnode⟩
  | num n => exact fun _ _ => ⟨_, Derives.factor ⟨.num n, rfl, rfl⟩ _⟩
  | real r => exact fun _ _ => ⟨_, Derives.factor ⟨.real r, rfl, rfl⟩ _⟩
  | true => exact fun _ _ => ⟨_, Derives.factor ⟨.true, rfl, rfl⟩ _⟩
  | false => exact fun _ _ => ⟨_, Derives.factor ⟨.false, rfl, rfl⟩ _⟩
  | name i =>
      intro e hw hover
      have hres := resolve_ok.mpr ⟨hover, rfl⟩
      have ht := ETree.perform_var.mpr ⟨i, hres, rfl⟩
      exact ⟨_, Derives.factor ⟨.var i.word, rfl, ht⟩ _⟩

/-! ## The parser -/

/-- The tokens that follow an expression in parentheses, in a subscript or in
an assignment. -/
def Closes (t : Token) : Prop := t = .chr ')' ∨ t = .chr ']' ∨ t = .chr ';'

theorem Closes.ends {t : Token} (h : Closes t) : Ends t := by
  rcases h with rfl | rfl | rfl <;> rfl

/-- On a printed tree `bool` returns that tree, and it stops at the token
that follows. -/
theorem bool_prints {x : Expr} {ts rest : List Token} {stop : Token}
    {sem : Sem} {fuel : Nat} (hw : x.WellTyped) (hover : x.Over sem.top)
    (hts : Prints 0 x ts) (hstop : Closes stop)
    (hfuel : 10 * (ts ++ stop :: rest).length + 8 ≤ fuel) :
    ∃ sem', bool fuel ⟨ts ++ stop :: rest, sem⟩ =
        .ok (x, ⟨stop :: rest, sem'⟩) ∧ SameScope sem sem' := by
  obtain ⟨sem', t, rfl, ht⟩ := hts.derives hw hover
  refine ⟨sem', ?_, (ETree.perform_wellTyped t ht).2⟩
  have hfinishes := (exprFinishes fuel).bool ⟨t.yield ++ stop :: rest, sem⟩
    hfuel
  exact ((exprComplete fuel).bool t (hstop.ends.stops _) ht).resolve_right
    hfinishes

/-- `i - (2 - i) * -i <= 3 && !b`, where both minus signs between operands
are read from left to right. -/
theorem bool_prints_difference :
    let i : Id := ⟨⟨['i'], 0⟩, .int, 0, 0⟩
    let b : Id := ⟨⟨['b'], 1⟩, .bool, 4, 1⟩
    let sem : Sem := { Sem.init with top := [[(0, i), (1, b)]] }
    ∃ sem', bool 200
        ⟨[.id i.word, .chr '-', .chr '(', .num (Num.spell 2), .chr '-',
          .id i.word, .chr ')', .chr '*', .chr '-', .id i.word, .le,
          .num (Num.spell 3), .and, .chr '!', .id b.word, .chr ';'], sem⟩ =
        .ok (.and
          (.rel .le
            (.arith .sub (.id i) (.arith .mul
              (.arith .sub (.const (.num 2)) (.id i)) (.unary (.id i))))
            (.const (.num 3)))
          (.not (.id b)), ⟨[.chr ';'], sem'⟩) ∧ SameScope sem sem' := by
  intro i b sem
  let x : Expr := .and
    (.rel .le
      (.arith .sub (.id i) (.arith .mul
        (.arith .sub (.const (.num 2)) (.id i)) (.unary (.id i))))
      (.const (.num 3)))
    (.not (.id b))
  have hover : x.Over sem.top :=
    ⟨⟨⟨rfl, ⟨⟨Num.spell 2, by decide⟩, rfl⟩, rfl⟩, Num.spell 3, by decide⟩, rfl⟩
  have hw : x.WellTyped := by
    simp [x, i, b, Expr.WellTyped, Expr.type, Ty.max, Ty.numeric, relCheck,
      isArray, Ty.isArray, logicalCheck, Const.type]
  have hprints := Expr.print_prints hover 0
  have hfuel : 10 * (x.print 0 ++ [Token.chr ';']).length + 8 ≤ 200 := by
    decide +kernel
  have hrun := bool_prints hw hover hprints (.inr (.inr rfl)) hfuel
  exact hrun

end LearningLinux.FrontEnd
