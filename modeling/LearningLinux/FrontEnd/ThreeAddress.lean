import LearningLinux.FrontEnd.Fragment

/-!
# Three-address form

`reduce` makes an operand of an expression. `Op` overrides it, and the class
`Expr` answers with the node itself, which is right for identifiers,
constants and temporaries. `Logical` does not override it although its nodes
are no operands, so an `And`, `Or`, `Not` or `Rel` that is an operand of a
`Rel`, or the value of a `SetElem`, is printed whole. Those two are the only
ways in: every other operand position is numeric, and no `Logical` is.
-/

namespace LearningLinux.FrontEnd

open Lib

/-- An identifier, a constant or a temporary. -/
def Expr.isOperand : Expr → Bool
  | .id _ => true
  | .const _ => true
  | .temp _ _ => true
  | _ => false

/-- An operand, or one operator over operands. -/
def Expr.oneOperator : Expr → Bool
  | .arith _ x y => x.isOperand && y.isOperand
  | .unary x => x.isOperand
  | .access _ i _ => i.isOperand
  | .rel _ x y => x.isOperand && y.isOperand
  | e => e.isOperand

def Instr.threeAddress : Instr → Bool
  | .set _ e => e.oneOperator
  | .setTemp _ e => e.oneOperator
  | .store _ i e => i.isOperand && e.isOperand
  | .goto _ => true
  | .ifTrue test _ => test.oneOperator
  | .ifFalse test _ => test.oneOperator

def Item.threeAddress : Item → Bool
  | .label _ => true
  | .instr i => i.threeAddress

/-- No operand of a `Rel` is a `Logical`. -/
def Expr.noLogicalOperand : Expr → Bool
  | .arith _ x y => x.noLogicalOperand && y.noLogicalOperand
  | .unary x => x.noLogicalOperand
  | .access _ i _ => i.noLogicalOperand
  | .or x y => x.noLogicalOperand && y.noLogicalOperand
  | .and x y => x.noLogicalOperand && y.noLogicalOperand
  | .not x => x.noLogicalOperand
  | .rel _ x y => !x.isLogical && !y.isLogical && x.noLogicalOperand &&
      y.noLogicalOperand
  | _ => true

/-- No operand of a `Rel` and no value of a `SetElem` is a `Logical`. -/
def Stmt.noLogicalOperand : Stmt → Bool
  | .set _ x => x.noLogicalOperand
  | .setElem _ i x =>
      !x.isLogical && i.noLogicalOperand && x.noLogicalOperand
  | .if x s => x.noLogicalOperand && s.noLogicalOperand
  | .else x s1 s2 =>
      x.noLogicalOperand && s1.noLogicalOperand && s2.noLogicalOperand
  | .while _ x s => x.noLogicalOperand && s.noLogicalOperand
  | .do _ s x => s.noLogicalOperand && x.noLogicalOperand
  | .seq s1 s2 => s1.noLogicalOperand && s2.noLogicalOperand
  | _ => true

/-! ## Operands -/

/-- Where a number is asked for there is no `Logical`. -/
theorem Expr.WellTyped.not_logical {e : Expr} (hw : e.WellTyped)
    (hn : Ty.numeric e.type = true) : e.isLogical = false := by
  cases hl : e.isLogical with
  | false => rfl
  | true =>
      rw [hw.logical_type hl] at hn
      cases hn

/-- What is known of the code of an operand. -/
structure Reduced (e x : Expr) (k : List Item) : Prop where
  operand : x.isOperand = true
  items : k.all Item.threeAddress = true
  tree : e.noLogicalOperand = true

theorem Reduces.reduced_of {e : Expr} (hw : e.WellTyped)
    (hl : e.isLogical = false)
    (hgen : ∀ {g : Expr} {c c' : Nat} {k : List Item}, OpGen e g c c' k →
      g.oneOperator = true ∧ k.all Item.threeAddress = true ∧
        e.noLogicalOperand = true)
    {x : Expr} {c c' : Nat} {k : List Item} (h : Reduces e x c c' k) :
    Reduced e x k := by
  cases h with
  | op hg =>
      obtain ⟨hone, hk, he⟩ := hgen hg
      refine ⟨rfl, ?_, he⟩
      simp [hk, Item.threeAddress, Instr.threeAddress, hone]
  | same ho =>
      cases e with
      | id i => exact ⟨rfl, rfl, rfl⟩
      | const c => exact ⟨rfl, rfl, rfl⟩
      | temp n type => cases hw
      | arith op x y => cases ho
      | unary x => cases ho
      | access a i type => cases ho
      | _ => cases hl

theorem OpGen.threeAddress {e g : Expr} {c c' : Nat} {k : List Item}
    (h : OpGen e g c c' k) (hw : e.WellTyped) :
    g.oneOperator = true ∧ k.all Item.threeAddress = true ∧
      e.noLogicalOperand = true := by
  induction e generalizing g c c' k with
  | arith op x y ihx ihy =>
      obtain ⟨hwx, hwy, hnx, hny⟩ := hw
      cases h with
      | arith hx hy =>
          have rx := hx.reduced_of hwx (hwx.not_logical hnx) (ihx · hwx)
          have ry := hy.reduced_of hwy (hwy.not_logical hny) (ihy · hwy)
          refine ⟨?_, ?_, ?_⟩
          · simp [Expr.oneOperator, rx.operand, ry.operand]
          · rw [List.all_append, rx.items, ry.items]
            rfl
          · simp [Expr.noLogicalOperand, rx.tree, ry.tree]
  | unary x ih =>
      obtain ⟨hwx, hnx⟩ := hw
      cases h with
      | unary hx =>
          have rx := hx.reduced_of hwx (hwx.not_logical hnx) (ih · hwx)
          exact ⟨rx.operand, rx.items, rx.tree⟩
  | access a i type ih =>
      obtain ⟨hwi, hni⟩ := hw
      cases h with
      | access hi =>
          have ri := hi.reduced_of hwi (hwi.not_logical hni) (ih · hwi)
          exact ⟨ri.operand, ri.items, ri.tree⟩
  | _ => cases h

theorem Reduces.reduced {e x : Expr} {c c' : Nat} {k : List Item}
    (h : Reduces e x c c' k) (hw : e.WellTyped)
    (hl : e.isLogical = false) : Reduced e x k :=
  h.reduced_of hw hl (OpGen.threeAddress · hw)

/-- A `Logical` reduces to itself. -/
theorem Reduces.logical {e x : Expr} {c c' : Nat} {k : List Item}
    (h : Reduces e x c c' k) (hl : e.isLogical = true) :
    x.isOperand = false := by
  cases h with
  | op hg => cases hg <;> cases hl
  | same he =>
      cases e with
      | or y z => rfl
      | and y z => rfl
      | not y => rfl
      | rel op y z => rfl
      | _ => cases hl

/-! ## Jumps -/

theorem all_jumpItems {x : Expr} {t f : Nat} (htf : t ≠ 0 ∨ f ≠ 0) :
    (jumpItems x t f).all Item.threeAddress = x.oneOperator := by
  rw [jumpItems]
  split
  · simp [Item.threeAddress, Instr.threeAddress]
  · split
    · simp [Item.threeAddress, Instr.threeAddress]
    · next ht =>
        rw [if_pos (htf.resolve_left ht)]
        simp [Item.threeAddress, Instr.threeAddress]

theorem all_gotoItems (l : Nat) :
    (gotoItems l).all Item.threeAddress = true := by
  rw [gotoItems]
  split <;> rfl

theorem Jumps.threeAddress {e : Expr} {t f : Nat} {σ σ' : Counters}
    {k : Chunk} (h : Jumps e t f σ σ' k) (hw : e.WellTyped)
    (htf : t ≠ 0 ∨ f ≠ 0) :
    k.items.all Item.threeAddress = e.noLogicalOperand := by
  induction h with
  | true => exact all_gotoItems _
  | false => exact all_gotoItems _
  | id => exact all_jumpItems htf
  | access hx =>
      have rx := hx.reduced hw rfl
      rw [List.all_append, rx.items, all_jumpItems htf, rx.tree]
      cases hx with
      | op hg => rfl
      | same ho => cases ho
  | rel hx hy =>
      obtain ⟨hwx, hwy, -⟩ := hw
      rw [List.all_append, List.all_append, all_jumpItems htf,
        Expr.oneOperator, Expr.noLogicalOperand]
      cases hlx : Expr.isLogical _ with
      | true => rw [hx.logical hlx]; simp
      | false =>
          have rx := hx.reduced hwx hlx
          cases hly : Expr.isLogical _ with
          | true => rw [hy.logical hly]; simp
          | false =>
              have ry := hy.reduced hwy hly
              rw [rx.items, rx.operand, rx.tree, ry.items, ry.operand,
                ry.tree]
              rfl
  | not hx ih => exact ih hw.1 htf.symm
  | orTo ht hx hy ihx ihy =>
      rw [List.all_append, ihx hw.1 (.inl ht), ihy hw.2.1 htf]
      rfl
  | orFall hx hy ihx ihy =>
      rw [List.all_append, List.all_append,
        ihx hw.1 (.inl (Nat.succ_ne_zero _)), ihy hw.2.1 htf]
      exact Bool.and_true _
  | andTo hf hx hy ihx ihy =>
      rw [List.all_append, ihx hw.1 (.inr hf), ihy hw.2.1 htf]
      rfl
  | andFall hx hy ihx ihy =>
      rw [List.all_append, List.all_append,
        ihx hw.1 (.inr (Nat.succ_ne_zero _)), ihy hw.2.1 htf]
      exact Bool.and_true _

theorem Gens.threeAddress {e g : Expr} {σ σ' : Counters} {k : Chunk}
    (h : Gens e g σ σ' k) (hw : e.WellTyped) :
    (k.items.all Item.threeAddress && g.oneOperator) =
      e.noLogicalOperand := by
  cases h with
  | op hg =>
      obtain ⟨hone, hk, he⟩ := hg.threeAddress hw
      rw [hk, hone, he]
      rfl
  | same ho hl =>
      cases e with
      | id i => rfl
      | const c => rfl
      | temp n type => rfl
      | arith op x y => cases ho
      | unary x => cases ho
      | access a i type => cases ho
      | _ => cases hl
  | logical he hj =>
      rw [List.all_append, hj.threeAddress hw (.inr (Nat.succ_ne_zero _))]
      simp [logicalItems, Item.threeAddress, Instr.threeAddress,
        Expr.oneOperator, Expr.isOperand]

theorem StmtCode.threeAddress {s : Stmt} {b a : Nat} {loop : Nat × Nat}
    {σ σ' : Counters} {k : Chunk} (h : StmtCode s b a loop σ σ' k)
    (hw : s.WellTyped) (hb : b ≠ 0) (ha : a ≠ 0) :
    k.items.all Item.threeAddress = s.noLogicalOperand := by
  induction h with
  | null => rfl
  | set hx =>
      rw [List.all_append, Stmt.noLogicalOperand, ← hx.threeAddress hw.1]
      simp [Item.threeAddress, Instr.threeAddress]
  | setElem hx hy =>
      obtain ⟨hwx, hnx, hwy, -⟩ := hw
      have rx := hx.reduced hwx (hwx.not_logical hnx)
      rw [List.all_append, List.all_append, rx.items, Stmt.noLogicalOperand,
        rx.tree]
      cases hly : Expr.isLogical _ with
      | true =>
          simp [Item.threeAddress, Instr.threeAddress, hy.logical hly]
      | false =>
          have ry := hy.reduced hwy hly
          simp [Item.threeAddress, Instr.threeAddress, rx.operand, ry.items,
            ry.operand, ry.tree]
  | «if» hx hs ih =>
      obtain ⟨hwx, -, hws⟩ := hw
      rw [List.all_append, hx.threeAddress hwx (.inr ha), List.all_cons,
        ih hws (Nat.succ_ne_zero _) ha]
      rfl
  | «else» hx hs1 hs2 ih1 ih2 =>
      obtain ⟨hwx, -, hws1, hws2⟩ := hw
      rw [List.all_append, List.all_append, List.all_cons, List.all_cons,
        List.all_cons, hx.threeAddress hwx (.inr (Nat.succ_ne_zero _)),
        ih1 hws1 (Nat.succ_ne_zero _) ha, ih2 hws2 (Nat.succ_ne_zero _) ha]
      rfl
  | «while» hx hs ih =>
      obtain ⟨hwx, -, hws⟩ := hw
      rw [List.all_append, List.all_append, List.all_cons,
        hx.threeAddress hwx (.inr ha), ih hws (Nat.succ_ne_zero _) hb]
      exact Bool.and_true _
  | «do» hs hx ih =>
      obtain ⟨hwx, -, hws⟩ := hw
      rw [List.all_append, List.all_cons, ih hws hb (Nat.succ_ne_zero _),
        hx.threeAddress hwx (.inl hb)]
      rfl
  | «break» => rfl
  | «continue» => rfl
  | seqRight hs ih => exact ih hw.2 hb ha
  | seqLeft hn hs ih =>
      rw [ih hw.1 hb ha, Stmt.noLogicalOperand]
      exact (Bool.and_true _).symm
  | seq hn1 hn2 hs1 hs2 ih1 ih2 =>
      rw [List.all_append, List.all_cons, ih1 hw.1 hb (Nat.succ_ne_zero _),
        ih2 hw.2 (Nat.succ_ne_zero _) ha]
      rfl

/-! ## Accepted programs -/

/-- Every instruction has at most one operator. -/
def ThreeAddressForm (g : GState) : Prop :=
  ∀ i, .instr i ∈ g.out → i.threeAddress = true

theorem threeAddressForm_iff {g : GState} :
    ThreeAddressForm g ↔ g.out.all Item.threeAddress = true := by
  rw [List.all_eq_true]
  constructor
  · intro h it hit
    cases it with
    | label l => rfl
    | instr i => exact h i hit
  · intro h i hi
    exact h _ hi

theorem program_threeAddress_iff {toks : List Token} {o : Output}
    (h : program toks = .ok o) :
    ThreeAddressForm o.gen ↔ o.stmt.noLogicalOperand = true := by
  obtain ⟨hw, -, -⟩ := program_built h
  obtain ⟨-, -, k, hk⟩ := program_code h
  rw [threeAddressForm_iff, hk.out, List.all_append, List.all_cons,
    hk.code.threeAddress hw (by decide) (by decide)]
  simp [Item.threeAddress]

theorem program_threeAddress_sum : ∃ o : Output,
    main "\x7b int[8] a; int i; a[i + 1] = a[i] * 2 - i; \x7d" = .ok o ∧
      ThreeAddressForm o.gen := by
  obtain ⟨o, ho, hplain⟩ := exists_of_okAnd
    (p := fun o => o.stmt.noLogicalOperand)
    (x := main "\x7b int[8] a; int i; a[i + 1] = a[i] * 2 - i; \x7d")
    (by decide +kernel)
  exact ⟨o, ho, (program_threeAddress_iff ho).mpr hplain⟩

/-- `a == b == c` compares a comparison, which is printed whole. -/
theorem not_threeAddress_nested_rel : ∃ o : Output,
    main "\x7b bool a; bool b; bool c; a = a == b == c; \x7d" = .ok o ∧
      ¬ ThreeAddressForm o.gen := by
  obtain ⟨o, ho, hbad⟩ := exists_of_okAnd
    (p := fun o => !o.gen.out.all Item.threeAddress)
    (x := main "\x7b bool a; bool b; bool c; a = a == b == c; \x7d")
    (by decide +kernel)
  refine ⟨o, ho, fun hform => ?_⟩
  rw [threeAddressForm_iff.mp hform] at hbad
  cases hbad

end LearningLinux.FrontEnd
