import LearningLinux.FrontEnd.Semantics

/-!
# The code does what the tree means

The pieces of code of a program are run one by one, each placed somewhere in
the whole. For expressions there is one lemma a method, in the form
`Yields`. For statements the invariant is that `gen(b, a)` makes code that
runs from the label `b`, which stands directly in front of it, to the label
`a`: falling off its end must then be as good as jumping to `a` (`Falls`),
and it is the caller who sees to that, with the label or with a `goto`.

Forwards this is an induction over `Exec`. Backwards it is an induction over
the number of steps that are left, and inside it over the derivation of the
code; a loop is entered again with fewer steps left.
-/

namespace LearningLinux.FrontEnd

open Lib

variable {V : Type} {code : List Item}

/-- What the code of a whole program has. -/
structure Disciplined (code : List Item) : Prop where
  once : ∀ l, placed l code ≤ 1
  targets : ∀ i l, .instr i ∈ code → i.target = some l → .label l ∈ code

/-- Where the label `l` stands. -/
def pos (code : List Item) (l : Nat) : Nat := (labelPos code l).getD 0

/-- Where control goes for a label that may be 0, at the end `q` of the
jumps. -/
def dest (code : List Item) (l q : Nat) : Nat :=
  if l = 0 then q else pos code l

theorem labelPos_of_mem {l : Nat} (h : .label l ∈ code) :
    labelPos code l = some (pos code l) := by
  rw [pos]
  cases hp : labelPos code l with
  | none => exact absurd h (List.idxOf?_eq_none_iff.mp hp)
  | some p => rfl

theorem pos_of_segment (hd : Disciplined code) {p l : Nat} {k : List Item}
    (h : Segment code p (.label l :: k)) : pos code l = p := by
  have hp : code[p]? = some (.label l) := h.head
  have hlt : p < code.length := (List.getElem?_eq_some_iff.mp hp).1
  have hget : code[p] = .label l := (List.getElem?_eq_some_iff.mp hp).2
  have hlabel : labelPos code l = some p := by
    refine List.idxOf?_eq_some_iff.mpr ⟨hlt, hget, ?_⟩
    -- A second place in front of `p` would make it two.
    intro j hj heq
    have hfront : 0 < (code.take p).count (.label l) := by
      have hlen : j < (code.take p).length := by
        rw [List.length_take]
        omega
      have hmem := List.getElem_mem hlen
      rw [List.getElem_take, heq] at hmem
      exact List.count_pos_iff.mpr hmem
    have hback : 0 < (code.drop p).count (.label l) := by
      refine List.count_pos_iff.mpr ?_
      obtain ⟨rest, hrest⟩ := h
      rw [← hrest]
      exact List.mem_cons_self
    have htwo : placed l code =
        (code.take p).count (.label l) + (code.drop p).count (.label l) := by
      rw [placed, ← List.count_append, List.take_append_drop]
    have hone := hd.once l
    omega
  rw [pos, hlabel]
  rfl

/-! ## Single instructions -/

theorem not_halted {p : Nat} {it : Item} (h : code[p]? = some it) (m : Mem V)
    (T : Nat → V) : ¬ halted code (⟨p, m, T⟩ : MState V) := by
  intro hp
  rw [show p = code.length from hp, List.getElem?_eq_none (Nat.le_refl _)] at h
  cases h

theorem jump_eq (hd : Disciplined code) {p l : Nat} {i : Instr}
    (h : code[p]? = some (.instr i)) (hl : i.target = some l) (m : Mem V)
    (T : Nat → V) : MState.jump code (⟨p, m, T⟩ : MState V) l =
      some ⟨pos code l, m, T⟩ := by
  have hmem : .instr i ∈ code := List.mem_of_getElem? h
  rw [MState.jump, labelPos_of_mem (hd.targets i l hmem hl)]
  rfl

variable [DecidableEq V] {I : Interp V}

theorem mstep_label {p l : Nat} (h : code[p]? = some (.label l)) (m : Mem V)
    (T : Nat → V) : mstep I code ⟨p, m, T⟩ = some ⟨p + 1, m, T⟩ := by
  rw [mstep, h]
  rfl

theorem mstep_instr {p : Nat} {i : Instr} (h : code[p]? = some (.instr i))
    (m : Mem V) (T : Nat → V) :
    mstep I code ⟨p, m, T⟩ = execInstr I code ⟨p, m, T⟩ i := by
  rw [mstep, h]

theorem mstep_goto (hd : Disciplined code) {p l : Nat}
    (h : code[p]? = some (.instr (.goto l))) (m : Mem V) (T : Nat → V) :
    mstep I code ⟨p, m, T⟩ = some ⟨pos code l, m, T⟩ := by
  rw [mstep_instr h, execInstr, jump_eq hd h rfl]

theorem yields_setTemp {p n : Nat} {g : Expr}
    (h : code[p]? = some (.instr (.setTemp n g))) (m : Mem V) (T : Nat → V) :
    Yields (mstep I code) (halted code) ⟨p, m, T⟩ (g.rhsValue I m T)
      fun v t => t = ⟨p + 1, m, fun j => if j = n then v else T j⟩ :=
  yields_step (mstep_instr h m T) (not_halted h m T)

theorem yields_set {p : Nat} {i : Id} {g : Expr}
    (h : code[p]? = some (.instr (.set i g))) (m : Mem V) (T : Nat → V) :
    Yields (mstep I code) (halted code) ⟨p, m, T⟩ (g.rhsValue I m T)
      fun v t => t = ⟨p + 1, m.setVar i v, T⟩ :=
  yields_step (mstep_instr h m T) (not_halted h m T)

theorem mstep_store {p : Nat} {a : Id} {x y : Expr} {w v : V}
    (h : code[p]? = some (.instr (.store a x y))) {m : Mem V} {T : Nat → V}
    (hx : x.operandValue I m T = some w)
    (hy : y.operandValue I m T = some v) :
    mstep I code ⟨p, m, T⟩ = some ⟨p + 1, m.setElem a w v, T⟩ := by
  rw [mstep_instr h, execInstr, hx, hy]
  rfl

theorem yields_ifTrue (hd : Disciplined code) {p l : Nat} {x : Expr}
    (h : code[p]? = some (.instr (.ifTrue x l))) (m : Mem V) (T : Nat → V) :
    Yields (mstep I code) (halted code) ⟨p, m, T⟩ (x.testValue I m T)
      fun b t => t = ⟨if b then pos code l else p + 1, m, T⟩ := by
  refine yields_step ?_ (not_halted h m T)
  rw [mstep_instr h, execInstr]
  cases x.testValue I m T with
  | none => rfl
  | some b =>
      cases b with
      | true => exact jump_eq hd h rfl m T
      | false => rfl

theorem yields_ifFalse (hd : Disciplined code) {p l : Nat} {x : Expr}
    (h : code[p]? = some (.instr (.ifFalse x l))) (m : Mem V) (T : Nat → V) :
    Yields (mstep I code) (halted code) ⟨p, m, T⟩ (x.testValue I m T)
      fun b t => t = ⟨if b then p + 1 else pos code l, m, T⟩ := by
  refine yields_step ?_ (not_halted h m T)
  rw [mstep_instr h, execInstr]
  cases x.testValue I m T with
  | none => rfl
  | some b =>
      cases b with
      | true => rfl
      | false => exact jump_eq hd h rfl m T

/-- `emitjumps`, with a label to go to. -/
theorem yields_jumpItems (hd : Disciplined code) {p t f : Nat} {x : Expr}
    (htf : t ≠ 0 ∨ f ≠ 0) (h : Segment code p (jumpItems x t f)) (m : Mem V)
    (T : Nat → V) :
    Yields (mstep I code) (halted code) ⟨p, m, T⟩ (x.testValue I m T)
      fun b s => s = ⟨dest code (if b then t else f)
        (p + (jumpItems x t f).length), m, T⟩ := by
  by_cases ht : t = 0
  · have hf : f ≠ 0 := htf.resolve_left (not_not.mpr ht)
    have hitems : jumpItems x t f = [.instr (.ifFalse x f)] := by
      simp [jumpItems, ht, hf]
    rw [hitems] at h ⊢
    refine (yields_ifFalse hd h.head m T).mono ?_
    rintro b s rfl
    cases b with
    | true => simp [dest, ht]
    | false => simp [dest, hf]
  · by_cases hf : f = 0
    · have hitems : jumpItems x t f = [.instr (.ifTrue x t)] := by
        simp [jumpItems, ht, hf]
      rw [hitems] at h ⊢
      refine (yields_ifTrue hd h.head m T).mono ?_
      rintro b s rfl
      cases b with
      | true => simp [dest, ht]
      | false => simp [dest, hf]
    · have hitems : jumpItems x t f =
          [.instr (.ifTrue x t), .instr (.goto f)] := by
        simp [jumpItems, ht, hf]
      rw [hitems] at h ⊢
      have hgoto := mstep_goto (I := I) hd h.tail.head m T
      have htest := yields_ifTrue (I := I) hd h.head m T
      cases hv : x.testValue I m T with
      | none =>
          rw [hv] at htest
          exact htest
      | some b =>
          rw [hv] at htest
          obtain ⟨s, hreach, rfl⟩ := htest
          cases b with
          | true => exact ⟨_, hreach, by simp [dest, ht]⟩
          | false =>
              exact ⟨_, hreach.trans (Reaches.single hgoto),
                by simp [dest, hf]⟩

/-! ## Operands

Temporaries are numbered upwards, and a piece of code sets only those made
for it. So the value of an operand survives the code of the next one.
-/

/-- The temporaries up to `c` are the same. -/
def Agree (c : Nat) (T T' : Nat → V) : Prop := ∀ n ≤ c, T' n = T n

/-- Only temporaries up to `c` occur. -/
def Expr.Below (c : Nat) : Expr → Prop
  | .temp n _ => n ≤ c
  | _ => True

omit [DecidableEq V] in
theorem Expr.Below.operandValue {c : Nat} {x : Expr} {T T' : Nat → V}
    (h : x.Below c) (hT : Agree c T T') (m : Mem V) :
    x.operandValue I m T' = x.operandValue I m T := by
  cases x with
  | temp n type =>
      rw [Expr.operandValue, Expr.operandValue, hT n h]
  | _ => rfl

theorem OpGen.count_le {e g : Expr} {c c' : Nat} {k : List Item}
    (h : OpGen e g c c' k) : c ≤ c' := by
  have hop : ∀ {e x : Expr} {c c' : Nat} {k : List Item},
      (∀ {g : Expr} {c c' : Nat} {k : List Item}, OpGen e g c c' k →
        c ≤ c') → Reduces e x c c' k → c ≤ c' := by
    intro e x c c' k hgen hr
    cases hr with
    | op hg => exact Nat.le_succ_of_le (hgen hg)
    | same he => exact Nat.le_refl c
  induction e generalizing g c c' k with
  | arith op x y ihx ihy =>
      cases h with
      | arith hx hy => exact Nat.le_trans (hop ihx hx) (hop ihy hy)
  | unary x ih =>
      cases h with
      | unary hx => exact hop ih hx
  | access a i type ih =>
      cases h with
      | access hi => exact hop ih hi
  | _ => cases h

theorem Reduces.count_le {e x : Expr} {c c' : Nat} {k : List Item}
    (h : Reduces e x c c' k) : c ≤ c' := by
  cases h with
  | op hg => exact Nat.le_succ_of_le hg.count_le
  | same he => exact Nat.le_refl c

theorem Reduces.operand_below {e x : Expr} {c c' : Nat} {k : List Item}
    (h : Reduces e x c c' k) (hw : e.WellTyped) : x.Below c' := by
  cases h with
  | op hg => exact Nat.le_refl _
  | same he =>
      cases e with
      | temp n type => cases hw
      | _ => exact trivial

/-- The state behind the code of an operand `x` with the value `v`. -/
def HoldsOperand (I : Interp V) (m : Mem V) (T : Nat → V) (c q : Nat)
    (x : Expr) (v : V) (s : MState V) : Prop :=
  ∃ T', s = ⟨q, m, T'⟩ ∧ Agree c T T' ∧ x.operandValue I m T' = some v

/-- The code of an `Op`, followed by an instruction that computes it: the
whole yields the value of the tree if the instruction yields that of its
right-hand side. -/
def OpRuns (I : Interp V) (code : List Item) (e : Expr) : Prop :=
  ∀ {g : Expr} {c c' : Nat} {k : List Item}, OpGen e g c c' k →
    ∀ {p : Nat}, Segment code p k → ∀ {m : Mem V} {T : Nat → V}
      {Q : V → MState V → Prop},
      (∀ T', Agree c T T' → Yields (mstep I code) (halted code)
        ⟨p + k.length, m, T'⟩ (g.rhsValue I m T') Q) →
      Yields (mstep I code) (halted code) ⟨p, m, T⟩ (e.eval I m) Q

theorem Reduces.run_of {e x : Expr} {c c' : Nat} {k : List Item}
    (h : Reduces e x c c' k) (hw : e.WellTyped) (hl : e.isLogical = false)
    (hop : OpRuns I code e) {p : Nat} (hat : Segment code p k) (m : Mem V)
    (T : Nat → V) :
    Yields (mstep I code) (halted code) ⟨p, m, T⟩ (e.eval I m)
      (HoldsOperand I m T c (p + k.length) x) := by
  cases h with
  | op hg =>
      refine hop hg hat.left fun T' hT' => ?_
      refine (yields_setTemp hat.right.head m T').mono ?_
      rintro v s rfl
      rw [List.length_append, List.length_singleton, ← Nat.add_assoc]
      refine ⟨_, rfl, ?_, ?_⟩
      · intro n hn
        have hlt := Nat.lt_succ_of_le (Nat.le_trans hn hg.count_le)
        simp only [if_neg (Nat.ne_of_lt hlt), hT' n hn]
      · simp [Expr.operandValue]
  | same ho =>
      have hval : e.eval I m = e.operandValue I m T ∧
          ∃ v, e.eval I m = some v := by
        cases e with
        | id i => exact ⟨rfl, _, rfl⟩
        | const a => exact ⟨rfl, _, rfl⟩
        | temp n type => cases hw
        | arith op x y => cases ho
        | unary x => cases ho
        | access a i type => cases ho
        | _ => cases hl
      obtain ⟨heq, v, hv⟩ := hval
      rw [hv]
      exact yields_some ⟨T, rfl, fun n _ => rfl, heq.symm.trans hv⟩

theorem Expr.WellTyped.opRuns {e : Expr} (hw : e.WellTyped) :
    OpRuns I code e := by
  induction e with
  | arith op x y ihx ihy =>
      obtain ⟨hwx, hwy, hnx, hny⟩ := hw
      intro g c c' k h p hat m T Q hQ
      cases h with
      | @arith _ _ _ x' y' _ c₁ _ k₁ k₂ hx hy =>
          have rx := hx.run_of hwx (hwx.not_logical hnx) (ihx hwx) hat.left
            m T
          refine rx.bind ?_
          rintro v s ⟨T₁, rfl, hT₁, hv⟩
          have ry := hy.run_of hwy (hwy.not_logical hny) (ihy hwy) hat.right
            m T₁
          refine ry.bind ?_
          rintro w s ⟨T₂, rfl, hT₂, hw⟩
          have hagree : Agree c T T₂ := fun n hn =>
            (hT₂ n (Nat.le_trans hn hx.count_le)).trans (hT₁ n hn)
          have hv₂ : x'.operandValue I m T₂ = some v :=
            ((hx.operand_below hwx).operandValue hT₂ m).trans hv
          have hyield := hQ T₂ hagree
          simp only [Expr.rhsValue, hv₂, hw, List.length_append] at hyield
          rw [Nat.add_assoc]
          exact hyield
  | unary x ih =>
      obtain ⟨hwx, hnx⟩ := hw
      intro g c c' k h p hat m T Q hQ
      cases h with
      | unary hx =>
          have rx := hx.run_of hwx (hwx.not_logical hnx) (ih hwx) hat m T
          refine rx.bind ?_
          rintro v s ⟨T₁, rfl, hT₁, hv⟩
          have hyield := hQ T₁ hT₁
          simp only [Expr.rhsValue, hv] at hyield
          exact hyield
  | access a i type ih =>
      obtain ⟨hwi, hni⟩ := hw
      intro g c c' k h p hat m T Q hQ
      cases h with
      | access hi =>
          have ri := hi.run_of hwi (hwi.not_logical hni) (ih hwi) hat m T
          refine ri.bind ?_
          rintro v s ⟨T₁, rfl, hT₁, hv⟩
          have hyield := hQ T₁ hT₁
          simp only [Expr.rhsValue, hv] at hyield
          exact hyield
  | _ =>
      intro g c c' k h
      cases h

theorem Reduces.run {e x : Expr} {c c' : Nat} {k : List Item}
    (h : Reduces e x c c' k) (hw : e.WellTyped) (hl : e.isLogical = false)
    {p : Nat} (hat : Segment code p k) (m : Mem V) (T : Nat → V) :
    Yields (mstep I code) (halted code) ⟨p, m, T⟩ (e.eval I m)
      (HoldsOperand I m T c (p + k.length) x) :=
  h.run_of hw hl hw.opRuns hat m T

/-! ## Conditions -/

section Holds

omit [DecidableEq V]

variable (I : Interp V) (m : Mem V)

theorem Expr.eval_or (x y : Expr) :
    (Expr.or x y).eval I m = (x.eval I m).bind fun v =>
      if I.truth v then some I.tt
      else (y.eval I m).bind fun w => some (I.ofBool (I.truth w)) := rfl

theorem Expr.eval_and (x y : Expr) :
    (Expr.and x y).eval I m = (x.eval I m).bind fun v =>
      if I.truth v then
        (y.eval I m).bind fun w => some (I.ofBool (I.truth w))
      else some I.ff := rfl

theorem Expr.eval_not (x : Expr) :
    (Expr.not x).eval I m = (x.eval I m).bind fun v =>
      some (I.ofBool (!I.truth v)) := rfl

theorem Expr.eval_rel (op : RelOp) (x y : Expr) :
    (Expr.rel op x y).eval I m = (x.eval I m).bind fun v =>
      (y.eval I m).bind fun w =>
        (I.rel op v w).bind fun b => some (I.ofBool b) := rfl

theorem Expr.holds_or (x y : Expr) :
    (Expr.or x y).holds I m = (x.holds I m).bind fun b =>
      if b then some true else y.holds I m := by
  rw [Expr.holds, Expr.eval_or, Expr.holds, Expr.holds]
  cases x.eval I m with
  | none => rfl
  | some v =>
      cases hv : I.truth v with
      | true => simp [hv, I.truth_tt]
      | false => cases y.eval I m <;> simp [hv, I.truth_ofBool]

theorem Expr.holds_and (x y : Expr) :
    (Expr.and x y).holds I m = (x.holds I m).bind fun b =>
      if b then y.holds I m else some false := by
  rw [Expr.holds, Expr.eval_and, Expr.holds, Expr.holds]
  cases x.eval I m with
  | none => rfl
  | some v =>
      cases hv : I.truth v with
      | true => cases y.eval I m <;> simp [hv, I.truth_ofBool]
      | false => simp [hv, I.truth_ff]

theorem Expr.holds_not (x : Expr) :
    (Expr.not x).holds I m = (x.holds I m).map Bool.not := by
  rw [Expr.holds, Expr.eval_not, Expr.holds]
  cases x.eval I m with
  | none => rfl
  | some v => simp [I.truth_ofBool]

theorem Expr.holds_rel (op : RelOp) (x y : Expr) :
    (Expr.rel op x y).holds I m = (x.eval I m).bind fun v =>
      (y.eval I m).bind fun w => I.rel op v w := by
  rw [Expr.holds, Expr.eval_rel]
  cases x.eval I m with
  | none => rfl
  | some v =>
      cases y.eval I m with
      | none => rfl
      | some w =>
          show Option.map I.truth
            ((I.rel op v w).bind fun b => some (I.ofBool b)) = I.rel op v w
          cases I.rel op v w with
          | none => rfl
          | some b => simp [I.truth_ofBool]

/-- The value of a `Logical` is its truth. -/
theorem Expr.eval_logical {e : Expr} (h : e.isLogical = true) :
    e.eval I m = (e.holds I m).map I.ofBool := by
  have hfix : ∀ r : Option Bool, (r.map I.ofBool).map I.truth = r := by
    intro r
    cases r with
    | none => rfl
    | some b => simp [I.truth_ofBool]
  have hval : ∃ r : Option Bool, e.eval I m = r.map I.ofBool := by
    cases e with
    | or x y =>
        rw [Expr.eval_or]
        cases x.eval I m with
        | none => exact ⟨none, rfl⟩
        | some v =>
            cases hv : I.truth v with
            | true => exact ⟨some true, by simp [hv, Interp.ofBool]⟩
            | false =>
                cases y.eval I m with
                | none => exact ⟨none, by simp [hv]⟩
                | some w => exact ⟨some (I.truth w), by simp [hv]⟩
    | and x y =>
        rw [Expr.eval_and]
        cases x.eval I m with
        | none => exact ⟨none, rfl⟩
        | some v =>
            cases hv : I.truth v with
            | false => exact ⟨some false, by simp [hv, Interp.ofBool]⟩
            | true =>
                cases y.eval I m with
                | none => exact ⟨none, by simp [hv]⟩
                | some w => exact ⟨some (I.truth w), by simp [hv]⟩
    | not x =>
        rw [Expr.eval_not]
        cases x.eval I m with
        | none => exact ⟨none, rfl⟩
        | some v => exact ⟨some (!I.truth v), rfl⟩
    | rel op x y =>
        rw [Expr.eval_rel]
        cases x.eval I m with
        | none => exact ⟨none, rfl⟩
        | some v =>
            cases y.eval I m with
            | none => exact ⟨none, rfl⟩
            | some w =>
                refine ⟨I.rel op v w, ?_⟩
                cases hr : I.rel op v w with
                | none => simp [hr]
                | some b => simp [hr]
    | _ => cases h
  obtain ⟨r, hr⟩ := hval
  rw [Expr.holds, hr, hfix]

end Holds

/-- Behind the jumps for a condition with the truth `b`. -/
def Decided (code : List Item) (m : Mem V) (t f q : Nat) (b : Bool)
    (s : MState V) : Prop :=
  ∃ T', s = ⟨dest code (if b then t else f) q, m, T'⟩

theorem dest_zero (code : List Item) (q : Nat) : dest code 0 q = q := rfl

theorem dest_of_ne {l : Nat} (h : l ≠ 0) (code : List Item) (q : Nat) :
    dest code l q = pos code l := if_neg h

/-- `if (l != 0) goto l`, where the condition is constant. -/
theorem run_gotoItems (hd : Disciplined code) {p l : Nat}
    (hat : Segment code p (gotoItems l)) (m : Mem V) (T : Nat → V) :
    Reaches (mstep I code) ⟨p, m, T⟩
      ⟨dest code l (p + (gotoItems l).length), m, T⟩ := by
  by_cases hl : l = 0
  · subst hl
    exact Reaches.refl _
  · have hitems : gotoItems l = [.instr (.goto l)] := if_pos hl
    rw [hitems] at hat
    rw [dest_of_ne hl]
    exact Reaches.single (mstep_goto hd hat.head m T)

/-- Where the code falls through, it goes on. -/
theorem yields_decided_next {s : MState V} {r : Option Bool} {m : Mem V}
    {t f q q' : Nat}
    (h : Yields (mstep I code) (halted code) s r (Decided code m t f q))
    (hq : ∀ T, Reaches (mstep I code) ⟨q, m, T⟩ ⟨q', m, T⟩) :
    Yields (mstep I code) (halted code) s r (Decided code m t f q') := by
  cases r with
  | none => exact h
  | some b =>
      obtain ⟨_, hreach, T, rfl⟩ := h
      refine ⟨_, hreach.trans ?_, T, rfl⟩
      by_cases hl : (if b then t else f) = 0
      · rw [hl, dest_zero, dest_zero]
        exact hq T
      · rw [dest_of_ne hl, dest_of_ne hl]
        exact Reaches.refl _

theorem run_jumps (hd : Disciplined code) {e : Expr} {t f : Nat}
    {σ σ' : Counters} {k : Chunk} (h : Jumps e t f σ σ' k)
    (hw : e.WellTyped) (hplain : e.noLogicalOperand = true)
    (htf : t ≠ 0 ∨ f ≠ 0) {p : Nat} (hat : Segment code p k.items)
    (m : Mem V) (T : Nat → V) :
    Yields (mstep I code) (halted code) ⟨p, m, T⟩ (e.holds I m)
      (Decided code m t f (p + k.items.length)) := by
  induction h generalizing p T with
  | true =>
      have hval : (Expr.const .true).holds I m = some true :=
        congrArg some I.truth_tt
      rw [hval]
      exact ⟨_, run_gotoItems hd hat m T, T, rfl⟩
  | false =>
      have hval : (Expr.const .false).holds I m = some false :=
        congrArg some I.truth_ff
      rw [hval]
      exact ⟨_, run_gotoItems hd hat m T, T, rfl⟩
  | id =>
      refine (yields_jumpItems hd htf hat m T).mono ?_
      rintro b s rfl
      exact ⟨T, rfl⟩
  | @access a i x type t f l c₀ c₁ k hx =>
      rw [Expr.holds, Option.map_eq_bind]
      refine (hx.run hw rfl hat.left m T).bind ?_
      rintro v s ⟨T₁, rfl, -, hv⟩
      have htest : x.testValue I m T₁ = some (I.truth v) := by
        cases hx with
        | op hg => rw [Expr.testValue, hv, Option.map_some]; rintro _ _ _ ⟨⟩
        | same ho => cases ho
      have hjump := yields_jumpItems (I := I) hd htf hat.right m T₁
      rw [htest] at hjump
      refine hjump.mono ?_
      rintro b s rfl
      exact ⟨T₁, by rw [List.length_append, Nat.add_assoc]⟩
  | @rel op x y x' y' t f l c₀ c₁ c₂ k₁ k₂ hx hy =>
      obtain ⟨hwx, hwy, -⟩ := hw
      simp only [Expr.noLogicalOperand, Bool.and_eq_true,
        Bool.not_eq_true'] at hplain
      obtain ⟨⟨⟨hlx, hly⟩, -⟩, -⟩ := hplain
      rw [Expr.holds_rel]
      refine (hx.run hwx hlx hat.left.left m T).bind ?_
      rintro v s ⟨T₁, rfl, -, hv⟩
      refine (hy.run hwy hly hat.left.right m T₁).bind ?_
      rintro w s ⟨T₂, rfl, hT₂, hw⟩
      have hv₂ : x'.operandValue I m T₂ = some v :=
        ((hx.operand_below hwx).operandValue hT₂ m).trans hv
      have htest : (Expr.rel op x' y').testValue I m T₂ = I.rel op v w := by
        rw [Expr.testValue, hv₂, hw]
        rfl
      have hseg := hat.right
      rw [List.length_append, ← Nat.add_assoc] at hseg
      have hjump := yields_jumpItems (I := I) hd htf hseg m T₂
      rw [htest] at hjump
      refine hjump.mono ?_
      rintro b s rfl
      exact ⟨T₂, by simp only [List.length_append, Nat.add_assoc]⟩
  | not hx ih =>
      rw [Expr.holds_not]
      refine (ih hw.1 hplain htf.symm hat T).map ?_
      rintro b s ⟨T₁, rfl⟩
      exact ⟨T₁, by cases b <;> rfl⟩
  | orTo ht hx hy ihx ihy =>
      simp only [Expr.noLogicalOperand, Bool.and_eq_true] at hplain
      rw [Expr.holds_or]
      refine (ihx hw.1 hplain.1 (.inl ht) hat.left T).bind ?_
      rintro b s ⟨T₁, rfl⟩
      cases b with
      | true =>
          refine yields_some ⟨T₁, ?_⟩
          simp only [if_pos, dest_of_ne ht]
      | false =>
          refine (ihy hw.2.1 hplain.2 htf hat.right T₁).mono ?_
          rintro b s ⟨T₂, rfl⟩
          exact ⟨T₂, by simp only [List.length_append, Nat.add_assoc]⟩
  | @orFall x y f l c σ₁ σ₂ k₁ k₂ hx hy ihx ihy =>
      simp only [Expr.noLogicalOperand, Bool.and_eq_true] at hplain
      have hlab := hat.right
      rw [List.length_append, ← Nat.add_assoc] at hlab
      have hpos := pos_of_segment hd hlab
      rw [Expr.holds_or]
      simp only [List.length_append, List.length_singleton, ← Nat.add_assoc]
      refine (ihx hw.1 hplain.1 (.inl (Nat.succ_ne_zero l)) hat.left.left
        T).bind ?_
      rintro b s ⟨T₁, rfl⟩
      cases b with
      | true =>
          rw [if_pos rfl, dest_of_ne (Nat.succ_ne_zero l), hpos]
          exact ⟨_, Reaches.single (mstep_label hlab.head m T₁), T₁, rfl⟩
      | false =>
          refine yields_decided_next (ihy hw.2.1 hplain.2 htf hat.left.right
            T₁) fun T₂ => ?_
          exact Reaches.single (mstep_label hlab.head m T₂)
  | andTo hf hx hy ihx ihy =>
      simp only [Expr.noLogicalOperand, Bool.and_eq_true] at hplain
      rw [Expr.holds_and]
      refine (ihx hw.1 hplain.1 (.inr hf) hat.left T).bind ?_
      rintro b s ⟨T₁, rfl⟩
      cases b with
      | true =>
          refine (ihy hw.2.1 hplain.2 htf hat.right T₁).mono ?_
          rintro b s ⟨T₂, rfl⟩
          exact ⟨T₂, by simp only [List.length_append, Nat.add_assoc]⟩
      | false =>
          refine yields_some ⟨T₁, ?_⟩
          simp only [Bool.false_eq_true, if_false, dest_of_ne hf]
  | @andFall x y t l c σ₁ σ₂ k₁ k₂ hx hy ihx ihy =>
      simp only [Expr.noLogicalOperand, Bool.and_eq_true] at hplain
      have hlab := hat.right
      rw [List.length_append, ← Nat.add_assoc] at hlab
      have hpos := pos_of_segment hd hlab
      rw [Expr.holds_and]
      simp only [List.length_append, List.length_singleton, ← Nat.add_assoc]
      refine (ihx hw.1 hplain.1 (.inr (Nat.succ_ne_zero l)) hat.left.left
        T).bind ?_
      rintro b s ⟨T₁, rfl⟩
      cases b with
      | true =>
          refine yields_decided_next (ihy hw.2.1 hplain.2 htf hat.left.right
            T₁) fun T₂ => ?_
          exact Reaches.single (mstep_label hlab.head m T₂)
      | false =>
          rw [if_neg Bool.false_ne_true, dest_of_ne (Nat.succ_ne_zero l),
            hpos]
          exact ⟨_, Reaches.single (mstep_label hlab.head m T₁), T₁, rfl⟩

/-! ## `gen` of an expression -/

theorem mstep_setConst {p n : Nat} {c : Const}
    (h : code[p]? = some (.instr (.setTemp n (.const c)))) (m : Mem V)
    (T : Nat → V) : mstep I code ⟨p, m, T⟩ =
      some ⟨p + 1, m, fun j => if j = n then I.const c else T j⟩ :=
  mstep_instr h m T

/-- The tail of `Logical.gen` puts the truth into the temporary. -/
theorem run_logicalItems (hd : Disciplined code) {q n f a : Nat}
    (hf : f ≠ 0) (hat : Segment code q (logicalItems n f a)) (m : Mem V)
    (T : Nat → V) (b : Bool) : ∃ T', T' n = I.ofBool b ∧
      Reaches (mstep I code) ⟨dest code (if b then 0 else f) q, m, T⟩
        ⟨q + 5, m, T'⟩ := by
  have h₁ := hat.tail
  have h₂ := h₁.tail
  have h₃ := h₂.tail
  have h₄ := h₃.tail
  have hpa := pos_of_segment hd h₄
  have hpf := pos_of_segment hd h₂
  cases b with
  | true =>
      refine ⟨fun j => if j = n then I.const .true else T j, if_pos rfl,
        (Reaches.single (mstep_setConst hat.head m T)).trans
        ((Reaches.single (mstep_goto hd h₁.head m _)).trans ?_)⟩
      rw [hpa]
      exact Reaches.single (mstep_label h₄.head m _)
  | false =>
      rw [if_neg Bool.false_ne_true, dest_of_ne hf, hpf]
      exact ⟨fun j => if j = n then I.const .false else T j, if_pos rfl,
        (Reaches.single (mstep_label h₂.head m T)).trans
        ((Reaches.single (mstep_setConst h₃.head m T)).trans
        (Reaches.single (mstep_label h₄.head m _)))⟩

/-- `gen`, followed by an instruction that uses what it returns. -/
theorem run_gens (hd : Disciplined code) {e g : Expr} {σ σ' : Counters}
    {k : Chunk} (h : Gens e g σ σ' k) (hw : e.WellTyped)
    (hplain : e.noLogicalOperand = true) {p : Nat}
    (hat : Segment code p k.items) {m : Mem V} {T : Nat → V}
    {Q : V → MState V → Prop}
    (hQ : ∀ T', Yields (mstep I code) (halted code)
      ⟨p + k.items.length, m, T'⟩ (g.rhsValue I m T') Q) :
    Yields (mstep I code) (halted code) ⟨p, m, T⟩ (e.eval I m) Q := by
  cases h with
  | op hg => exact hw.opRuns hg hat fun T' _ => hQ T'
  | same ho hl =>
      have hval : e.rhsValue I m T = e.eval I m := by
        cases e with
        | id i => rfl
        | const c => rfl
        | temp n type => cases hw
        | arith op x y => cases ho
        | unary x => cases ho
        | access a i type => cases ho
        | _ => cases hl
      rw [← hval]
      exact hQ T
  | logical he hj =>
      rw [Expr.eval_logical I m he, Option.map_eq_bind]
      refine (run_jumps hd hj hw hplain (.inr (Nat.succ_ne_zero _)) hat.left
        m T).bind ?_
      rintro b s ⟨T₁, rfl⟩
      obtain ⟨T', hval, hreach⟩ := run_logicalItems (I := I) hd
        (Nat.succ_ne_zero _) hat.right m T₁ b
      refine Yields.of_reaches hreach ?_
      have hyield := hQ T'
      rw [List.length_append, ← Nat.add_assoc] at hyield
      rw [show Expr.rhsValue I m T' (.temp _ e.type) = some (T' _) from rfl,
        hval] at hyield
      exact hyield

/-! ## Statements in place -/

/-- Falling off at `q` is as good as jumping to `a`. -/
def Falls (I : Interp V) (code : List Item) (q a : Nat) : Prop :=
  ∀ m T, Reaches (mstep I code) ⟨q, m, T⟩ ⟨pos code a, m, T⟩

/-- The code of `s` stands behind the label `b` at `p`. -/
structure Stands (I : Interp V) (code : List Item) (s : Stmt) (b a : Nat)
    (loop : Nat × Nat) (p : Nat) : Prop where
  wellTyped : s.WellTyped
  plain : s.noLogicalOperand = true
  begin : b ≠ 0
  after : a ≠ 0
  code : ∃ σ σ' k, StmtCode s b a loop σ σ' k ∧
    Segment code p (.label b :: k.items) ∧
    Falls I code (p + 1 + k.items.length) a

/-- A condition, tested from `p` on. -/
def Tests (I : Interp V) (code : List Item) (p : Nat) (x : Expr)
    (yes no : Nat) : Prop :=
  ∀ m T, Yields (mstep I code) (halted code) ⟨p, m, T⟩ (x.holds I m)
    fun b s => ∃ T', s = ⟨if b then yes else no, m, T'⟩

theorem Stands.entry {s : Stmt} {b a : Nat} {loop : Nat × Nat} {p : Nat}
    (h : Stands I code s b a loop p) (m : Mem V) (T : Nat → V) :
    mstep I code ⟨p, m, T⟩ = some ⟨p + 1, m, T⟩ := by
  obtain ⟨σ, σ', k, -, hat, -⟩ := h.code
  exact mstep_label hat.head m T

theorem Stands.pos_begin (hd : Disciplined code) {s : Stmt} {b a : Nat}
    {loop : Nat × Nat} {p : Nat} (h : Stands I code s b a loop p) :
    pos code b = p := by
  obtain ⟨σ, σ', k, -, hat, -⟩ := h.code
  exact pos_of_segment hd hat

/-- The condition of `If`, `Else` and `While`, which falls through if it is
true. -/
theorem tests_of_jumps (hd : Disciplined code) {x : Expr} {f : Nat}
    {σ σ' : Counters} {k : Chunk} (h : Jumps x 0 f σ σ' k)
    (hw : x.WellTyped) (hplain : x.noLogicalOperand = true) (hf : f ≠ 0)
    {p : Nat} (hat : Segment code p k.items) :
    Tests I code p x (p + k.items.length) (pos code f) := by
  intro m T
  refine (run_jumps hd h hw hplain (.inr hf) hat m T).mono ?_
  rintro b s ⟨T', rfl⟩
  refine ⟨T', ?_⟩
  cases b with
  | true => rfl
  | false => rw [if_neg Bool.false_ne_true, dest_of_ne hf,
      if_neg Bool.false_ne_true]

section Inversion

variable {b a p : Nat} {loop : Nat × Nat}

theorem Stands.null (h : Stands I code .null b a loop p) (m : Mem V)
    (T : Nat → V) :
    Reaches (mstep I code) ⟨p, m, T⟩ ⟨pos code a, m, T⟩ := by
  refine (Reaches.single (h.entry m T)).trans ?_
  obtain ⟨σ, σ', k, hk, -, hfall⟩ := h.code
  cases hk with
  | null => exact hfall m T

theorem Stands.set (hd : Disciplined code) {i : Id} {x : Expr}
    (h : Stands I code (.set i x) b a loop p) (m : Mem V) (T : Nat → V) :
    Yields (mstep I code) (halted code) ⟨p, m, T⟩ (x.eval I m)
      fun v s => ∃ T', s = ⟨pos code a, m.setVar i v, T'⟩ := by
  refine Yields.of_reaches (Reaches.single (h.entry m T)) ?_
  obtain ⟨σ, σ', k, hk, hat, hfall⟩ := h.code
  have hw := h.wellTyped
  have hplain := h.plain
  cases hk with
  | set hx =>
      refine run_gens hd hx hw.1 hplain hat.tail.left fun T' => ?_
      rw [List.length_append, List.length_singleton, ← Nat.add_assoc]
        at hfall
      refine (yields_set hat.tail.right.head m T').next ?_
      rintro v s rfl
      exact ⟨_, hfall _ T', T', rfl⟩

theorem Stands.setElem {i : Id} {x y : Expr}
    (h : Stands I code (.setElem i x y) b a loop p) (m : Mem V)
    (T : Nat → V) :
    Yields (mstep I code) (halted code) ⟨p, m, T⟩
      ((x.eval I m).bind fun w => (y.eval I m).map fun v => (w, v))
      fun r s => ∃ T', s = ⟨pos code a, m.setElem i r.1 r.2, T'⟩ := by
  refine Yields.of_reaches (Reaches.single (h.entry m T)) ?_
  obtain ⟨σ, σ', k, hk, hat, hfall⟩ := h.code
  obtain ⟨hwx, hnx, hwy, -⟩ := h.wellTyped
  have hplain := h.plain
  simp only [Stmt.noLogicalOperand, Bool.and_eq_true,
    Bool.not_eq_true'] at hplain
  obtain ⟨⟨hly, -⟩, -⟩ := hplain
  cases hk with
  | @setElem _ _ _ x' y' _ _ _ l c₀ c₁ c₂ k₁ k₂ hx hy =>
      have hlx := hwx.not_logical hnx
      refine (hx.run hwx hlx hat.tail.left.left m T).bind ?_
      rintro w s ⟨T₁, rfl, -, hw⟩
      rw [Option.map_eq_bind]
      refine (hy.run hwy hly hat.tail.left.right m T₁).bind ?_
      rintro v s ⟨T₂, rfl, hT₂, hv⟩
      have hw₂ : x'.operandValue I m T₂ = some w :=
        ((hx.operand_below hwx).operandValue hT₂ m).trans hw
      have hlast := hat.tail.right.head
      rw [List.length_append, List.length_append, List.length_singleton,
        ← Nat.add_assoc, ← Nat.add_assoc] at hfall
      rw [List.length_append, ← Nat.add_assoc] at hlast
      exact ⟨_, (Reaches.single (mstep_store hlast hw₂ hv)).trans
        (hfall _ T₂), T₂, rfl⟩

theorem Stands.if (hd : Disciplined code) {x : Expr} {s : Stmt}
    (h : Stands I code (.if x s) b a loop p) : ∃ l p₁,
      Stands I code s l a loop p₁ ∧
        Tests I code (p + 1) x p₁ (pos code a) := by
  obtain ⟨σ, σ', k, hk, hat, hfall⟩ := h.code
  obtain ⟨hwx, -, hws⟩ := h.wellTyped
  have hplain := h.plain
  simp only [Stmt.noLogicalOperand, Bool.and_eq_true] at hplain
  cases hk with
  | @«if» _ _ _ _ _ l c σ₁ _ k₁ k₂ hx hs =>
      refine ⟨l + 1, p + 1 + k₁.items.length, ⟨hws, hplain.2,
        Nat.succ_ne_zero l, h.after, _, _, _, hs, hat.tail.right, ?_⟩,
        tests_of_jumps hd hx hwx hplain.1 h.after hat.tail.left⟩
      simp only [List.length_append, List.length_cons] at hfall
      have hq : p + 1 + k₁.items.length + 1 + k₂.items.length =
          p + 1 + (k₁.items.length + (k₂.items.length + 1)) := by omega
      rw [hq]
      exact hfall

theorem Stands.else (hd : Disciplined code) {x : Expr} {s1 s2 : Stmt}
    (h : Stands I code (.else x s1 s2) b a loop p) : ∃ l₁ l₂ p₁ p₂,
      Stands I code s1 l₁ a loop p₁ ∧ Stands I code s2 l₂ a loop p₂ ∧
        Tests I code (p + 1) x p₁ p₂ := by
  obtain ⟨σ, σ', k, hk, hat, hfall⟩ := h.code
  obtain ⟨hwx, -, hws1, hws2⟩ := h.wellTyped
  have hplain := h.plain
  simp only [Stmt.noLogicalOperand, Bool.and_eq_true] at hplain
  cases hk with
  | @«else» _ _ _ _ _ _ l c σ₁ σ₂ _ k₁ k₂ k₃ hx hs1 hs2 =>
      have hgoto := hat.tail.right
      have hlab := hgoto.tail
      have htest := tests_of_jumps (I := I) hd hx hwx hplain.1.1
        (Nat.succ_ne_zero _) hat.tail.left.left
      rw [pos_of_segment hd hlab] at htest
      refine ⟨l + 1, l + 2, _, _, ⟨hws1, hplain.1.2, Nat.succ_ne_zero l,
        h.after, _, _, _, hs1, hat.tail.left.right, ?_⟩, ⟨hws2, hplain.2,
        Nat.succ_ne_zero _, h.after, _, _, _, hs2, hlab, ?_⟩, htest⟩
      · intro m T
        have hat₁ := hgoto.head
        simp only [List.length_append, List.length_cons] at hat₁
        have hq : p + 1 + k₁.items.length + 1 + k₂.items.length =
            p + 1 + (k₁.items.length + (k₂.items.length + 1)) := by omega
        rw [hq]
        exact Reaches.single (mstep_goto hd hat₁ m T)
      · simp only [List.length_append, List.length_cons] at hfall ⊢
        have hq : p + 1 + (k₁.items.length + (k₂.items.length + 1)) + 1 + 1 +
            k₃.items.length = p + 1 + (k₁.items.length +
              (k₂.items.length + 1) + (k₃.items.length + 1 + 1)) := by omega
        rw [hq]
        exact hfall

theorem Stands.while (hd : Disciplined code) {n : Nat} {x : Expr} {s : Stmt}
    (h : Stands I code (.while n x s) b a loop p) : ∃ l p₁,
      Stands I code s l b (b, a) p₁ ∧
        Tests I code (p + 1) x p₁ (pos code a) := by
  obtain ⟨σ, σ', k, hk, hat, -⟩ := h.code
  obtain ⟨hwx, -, hws⟩ := h.wellTyped
  have hplain := h.plain
  simp only [Stmt.noLogicalOperand, Bool.and_eq_true] at hplain
  cases hk with
  | @«while» _ _ _ _ _ _ _ l c _ k₁ k₂ hx hs =>
      refine ⟨l + 1, p + 1 + k₁.items.length, ⟨hws, hplain.2,
        Nat.succ_ne_zero l, h.begin, _, _, _, hs, hat.tail.left.right, ?_⟩,
        tests_of_jumps hd hx hwx hplain.1 h.after hat.tail.left.left⟩
      intro m T
      have hgoto := hat.tail.right.head
      simp only [List.length_append, List.length_cons] at hgoto
      have hq : p + 1 + k₁.items.length + 1 + k₂.items.length =
          p + 1 + (k₁.items.length + (k₂.items.length + 1)) := by omega
      rw [hq]
      exact Reaches.single (mstep_goto hd hgoto m T)

/-- The label between the body and the condition is where the body ends. -/
theorem Stands.do (hd : Disciplined code) {n : Nat} {x : Expr} {s : Stmt}
    (h : Stands I code (.do n s x) b a loop p) : ∃ l,
      Stands I code s b l (b, a) p ∧
      (∀ m T, mstep I code ⟨pos code l, m, T⟩ =
        some ⟨pos code l + 1, m, T⟩) ∧
      Tests I code (pos code l + 1) x p (pos code a) := by
  obtain ⟨σ, σ', k, hk, hat, hfall⟩ := h.code
  obtain ⟨hwx, -, hws⟩ := h.wellTyped
  have hplain := h.plain
  simp only [Stmt.noLogicalOperand, Bool.and_eq_true] at hplain
  have hbegin := h.pos_begin hd
  cases hk with
  | @«do» _ _ _ _ _ _ l c σ₁ _ k₁ k₂ hs hx =>
      have hlab := hat.tail.right
      have hpos := pos_of_segment hd hlab
      have hself : Segment code p (.label b :: k₁.items) := by
        rw [← List.cons_append] at hat
        exact hat.left
      refine ⟨l + 1, ⟨hws, hplain.1, h.begin, Nat.succ_ne_zero l, _, _, _, hs,
        hself, ?_⟩, ?_, ?_⟩
      · intro m T
        rw [hpos]
        exact Reaches.refl _
      · intro m T
        rw [hpos]
        exact mstep_label hlab.head m T
      · intro m T
        rw [hpos]
        refine (run_jumps hd hx hwx hplain.2 (.inl h.begin) hlab.tail m
          T).next ?_
        rintro c s ⟨T', rfl⟩
        cases c with
        | true =>
            rw [if_pos rfl, dest_of_ne h.begin, hbegin]
            exact ⟨_, Reaches.refl _, T', rfl⟩
        | false =>
            simp only [List.length_append, List.length_cons] at hfall
            have hq : p + 1 + k₁.items.length + 1 + k₂.items.length =
                p + 1 + (k₁.items.length + (k₂.items.length + 1)) := by omega
            refine ⟨_, ?_, T', rfl⟩
            rw [if_neg Bool.false_ne_true, if_neg Bool.false_ne_true,
              dest_zero, hq]
            exact hfall m T'

theorem Stands.break (hd : Disciplined code) {n : Nat}
    (h : Stands I code (.break n) b a loop p) (m : Mem V) (T : Nat → V) :
    Reaches (mstep I code) ⟨p, m, T⟩ ⟨pos code loop.2, m, T⟩ := by
  refine (Reaches.single (h.entry m T)).trans ?_
  obtain ⟨σ, σ', k, hk, hat, -⟩ := h.code
  cases hk with
  | «break» => exact Reaches.single (mstep_goto hd hat.tail.head m T)

theorem Stands.continue (hd : Disciplined code) {n : Nat}
    (h : Stands I code (.continue n) b a loop p) (m : Mem V) (T : Nat → V) :
    Reaches (mstep I code) ⟨p, m, T⟩ ⟨pos code loop.1, m, T⟩ := by
  refine (Reaches.single (h.entry m T)).trans ?_
  obtain ⟨σ, σ', k, hk, hat, -⟩ := h.code
  cases hk with
  | «continue» => exact Reaches.single (mstep_goto hd hat.tail.head m T)

theorem Stands.seq (hd : Disciplined code) {s1 s2 : Stmt}
    (h : Stands I code (.seq s1 s2) b a loop p) :
    (s1 = .null ∧ Stands I code s2 b a loop p) ∨
    (s2 = .null ∧ Stands I code s1 b a loop p) ∨
    ∃ l, Stands I code s1 b l loop p ∧
      Stands I code s2 l a loop (pos code l) := by
  obtain ⟨σ, σ', k, hk, hat, hfall⟩ := h.code
  obtain ⟨hws1, hws2⟩ := h.wellTyped
  have hplain := h.plain
  simp only [Stmt.noLogicalOperand, Bool.and_eq_true] at hplain
  cases hk with
  | seqRight hs =>
      exact .inl ⟨rfl, hws2, hplain.2, h.begin, h.after, _, _, _, hs, hat,
        hfall⟩
  | seqLeft hn hs =>
      exact .inr (.inl ⟨rfl, hws1, hplain.1, h.begin, h.after, _, _, _, hs,
        hat, hfall⟩)
  | @seq _ _ _ _ _ l c σ₁ _ k₁ k₂ hn1 hn2 hs1 hs2 =>
      have hlab := hat.tail.right
      have hpos := pos_of_segment hd hlab
      have hself : Segment code p (.label b :: k₁.items) := by
        rw [← List.cons_append] at hat
        exact hat.left
      refine .inr (.inr ⟨l + 1, ⟨hws1, hplain.1, h.begin, Nat.succ_ne_zero l,
        _, _, _, hs1, hself, ?_⟩, ⟨hws2, hplain.2, Nat.succ_ne_zero l,
        h.after, _, _, _, hs2, ?_, ?_⟩⟩)
      · intro m T
        rw [hpos]
        exact Reaches.refl _
      · rw [hpos]
        exact hlab
      · simp only [List.length_append, List.length_cons] at hfall
        have hq : p + 1 + k₁.items.length + 1 + k₂.items.length =
            p + 1 + (k₁.items.length + (k₂.items.length + 1)) := by omega
        rw [hpos, hq]
        exact hfall

end Inversion

/-! ## From the tree to the code -/

/-- No `continue` has a `do` as its innermost loop; `inDo` says whether the
statement itself has. -/
def Stmt.noDoContinue : Bool → Stmt → Bool
  | inDo, .if _ s => s.noDoContinue inDo
  | inDo, .else _ s1 s2 => s1.noDoContinue inDo && s2.noDoContinue inDo
  | _, .while _ _ s => s.noDoContinue false
  | _, .do _ s _ => s.noDoContinue true
  | inDo, .continue _ => !inDo
  | inDo, .seq s1 s2 => s1.noDoContinue inDo && s2.noDoContinue inDo
  | _, _ => true

theorem Exec.not_continued {s : Stmt} {m m' : Mem V} {o : Outcome}
    (h : Exec I s m o m') (hs : s.noDoContinue true = true) :
    o ≠ .continued := by
  induction h with
  | null | set _ | setElem _ _ | ifFalse _ | «break» => simp
  | whileDone _ | whileBreak _ _ _ | whileLoop _ _ _ _ _ _ => simp
  | doBreak _ _ | doDone _ _ _ _ | doLoop _ _ _ _ _ _ => simp
  | ifTrue hx hb ih => exact ih hs
  | elseTrue hx hb ih =>
      simp only [Stmt.noDoContinue, Bool.and_eq_true] at hs
      exact ih hs.1
  | elseFalse hx hb ih =>
      simp only [Stmt.noDoContinue, Bool.and_eq_true] at hs
      exact ih hs.2
  | «continue» => cases hs
  | seqNext h1 h2 ih1 ih2 =>
      simp only [Stmt.noDoContinue, Bool.and_eq_true] at hs
      exact ih2 hs.2
  | seqExit h1 ho ih =>
      simp only [Stmt.noDoContinue, Bool.and_eq_true] at hs
      exact ih hs.1

/-- Where a statement with the label `a` behind it leaves its code. -/
def exitPos (code : List Item) (a : Nat) (loop : Nat × Nat) : Outcome → Nat
  | .normal => pos code a
  | .broke => pos code loop.2
  | .continued => pos code loop.1

theorem Tests.reaches {p yes no : Nat} {x : Expr}
    (h : Tests I code p x yes no) {m : Mem V} {b : Bool}
    (hx : x.holds I m = some b) (T : Nat → V) : ∃ T',
      Reaches (mstep I code) ⟨p, m, T⟩ ⟨if b then yes else no, m, T'⟩ := by
  have hyield := h m T
  rw [hx] at hyield
  obtain ⟨s, hreach, T', rfl⟩ := hyield
  exact ⟨T', hreach⟩

/-- What the tree does, the code does. -/
theorem Stands.forward (hd : Disciplined code) {s : Stmt} {m m' : Mem V}
    {o : Outcome} (he : Exec I s m o m') {b a p : Nat} {loop : Nat × Nat}
    {inDo : Bool} (h : Stands I code s b a loop p)
    (hs : s.noDoContinue inDo = true) (T : Nat → V) : ∃ T',
      Reaches (mstep I code) ⟨p, m, T⟩ ⟨exitPos code a loop o, m', T'⟩ := by
  induction he generalizing b a p loop inDo T with
  | @null m => exact ⟨T, h.null m T⟩
  | @set i x m v hx =>
      have hyield := h.set hd m T
      rw [hx] at hyield
      obtain ⟨s, hreach, T', rfl⟩ := hyield
      exact ⟨T', hreach⟩
  | @setElem a i x m w v hi hx =>
      have hyield := h.setElem m T
      rw [hi, hx] at hyield
      obtain ⟨s, hreach, T', rfl⟩ := hyield
      exact ⟨T', hreach⟩
  | @ifTrue x s m m' o hx hb ih =>
      obtain ⟨l, p₁, hin, htest⟩ := h.if hd
      obtain ⟨T₁, h₁⟩ := htest.reaches hx T
      obtain ⟨T₂, h₂⟩ := ih hin hs T₁
      exact ⟨T₂, (Reaches.single (h.entry m T)).trans (h₁.trans h₂)⟩
  | @ifFalse x s m hx =>
      obtain ⟨l, p₁, hin, htest⟩ := h.if hd
      obtain ⟨T₁, h₁⟩ := htest.reaches hx T
      exact ⟨T₁, (Reaches.single (h.entry m T)).trans h₁⟩
  | @elseTrue x s1 s2 m m' o hx hb ih =>
      simp only [Stmt.noDoContinue, Bool.and_eq_true] at hs
      obtain ⟨l₁, l₂, p₁, p₂, hin1, hin2, htest⟩ := h.else hd
      obtain ⟨T₁, h₁⟩ := htest.reaches hx T
      obtain ⟨T₂, h₂⟩ := ih hin1 hs.1 T₁
      exact ⟨T₂, (Reaches.single (h.entry m T)).trans (h₁.trans h₂)⟩
  | @elseFalse x s1 s2 m m' o hx hb ih =>
      simp only [Stmt.noDoContinue, Bool.and_eq_true] at hs
      obtain ⟨l₁, l₂, p₁, p₂, hin1, hin2, htest⟩ := h.else hd
      obtain ⟨T₁, h₁⟩ := htest.reaches hx T
      obtain ⟨T₂, h₂⟩ := ih hin2 hs.2 T₁
      exact ⟨T₂, (Reaches.single (h.entry m T)).trans (h₁.trans h₂)⟩
  | @whileDone n x s m hx =>
      obtain ⟨l, p₁, hin, htest⟩ := h.while hd
      obtain ⟨T₁, h₁⟩ := htest.reaches hx T
      exact ⟨T₁, (Reaches.single (h.entry m T)).trans h₁⟩
  | @whileBreak n x s m m' hx hb ih =>
      obtain ⟨l, p₁, hin, htest⟩ := h.while hd
      obtain ⟨T₁, h₁⟩ := htest.reaches hx T
      obtain ⟨T₂, h₂⟩ := ih hin hs T₁
      exact ⟨T₂, (Reaches.single (h.entry m T)).trans (h₁.trans h₂)⟩
  | @whileLoop n x s m m₁ m₂ o hx hb ho hw ihb ihw =>
      obtain ⟨l, p₁, hin, htest⟩ := h.while hd
      obtain ⟨T₁, h₁⟩ := htest.reaches hx T
      obtain ⟨T₂, h₂⟩ := ihb hin hs T₁
      have hback : exitPos code b (b, a) o = p := by
        cases o with
        | normal => exact h.pos_begin hd
        | broke => exact absurd rfl ho
        | continued => exact h.pos_begin hd
      rw [hback] at h₂
      obtain ⟨T₃, h₃⟩ := ihw h hs T₂
      exact ⟨T₃, (Reaches.single (h.entry m T)).trans
        (h₁.trans (h₂.trans h₃))⟩
  | @doBreak n x s m m' hb ih =>
      obtain ⟨l, hin, -, -⟩ := h.do hd
      exact ih hin hs T
  | @doDone n x s m m₁ o hb ho hx ih =>
      obtain ⟨l, hin, hlab, htest⟩ := h.do hd
      obtain ⟨T₁, h₁⟩ := ih hin hs T
      obtain ⟨T₂, h₂⟩ := htest.reaches hx T₁
      have hend : exitPos code l (b, a) o = pos code l := by
        cases o with
        | normal => rfl
        | broke => exact absurd rfl ho
        | continued => exact absurd rfl (hb.not_continued hs)
      rw [hend] at h₁
      exact ⟨T₂, h₁.trans ((Reaches.single (hlab m₁ T₁)).trans h₂)⟩
  | @doLoop n x s m m₁ m₂ o hb ho hx hw ihb ihw =>
      obtain ⟨l, hin, hlab, htest⟩ := h.do hd
      obtain ⟨T₁, h₁⟩ := ihb hin hs T
      obtain ⟨T₂, h₂⟩ := htest.reaches hx T₁
      have hend : exitPos code l (b, a) o = pos code l := by
        cases o with
        | normal => rfl
        | broke => exact absurd rfl ho
        | continued => exact absurd rfl (hb.not_continued hs)
      rw [hend] at h₁
      obtain ⟨T₃, h₃⟩ := ihw h hs T₂
      exact ⟨T₃, h₁.trans ((Reaches.single (hlab m₁ T₁)).trans
        (h₂.trans h₃))⟩
  | @«break» n m => exact ⟨T, h.break hd m T⟩
  | @«continue» n m => exact ⟨T, h.continue hd m T⟩
  | @seqNext s1 s2 m m₁ m₂ o h1 h2 ih1 ih2 =>
      simp only [Stmt.noDoContinue, Bool.and_eq_true] at hs
      rcases h.seq hd with ⟨rfl, hin⟩ | ⟨rfl, hin⟩ | ⟨l, hin1, hin2⟩
      · cases h1
        exact ih2 hin hs.2 T
      · cases h2
        exact ih1 hin hs.1 T
      · obtain ⟨T₁, h₁⟩ := ih1 hin1 hs.1 T
        obtain ⟨T₂, h₂⟩ := ih2 hin2 hs.2 T₁
        exact ⟨T₂, h₁.trans h₂⟩
  | @seqExit s1 s2 m m₁ o h1 ho ih =>
      simp only [Stmt.noDoContinue, Bool.and_eq_true] at hs
      rcases h.seq hd with ⟨rfl, hin⟩ | ⟨rfl, hin⟩ | ⟨l, hin1, hin2⟩
      · cases h1
        exact absurd rfl ho
      · exact ih hin hs.1 T
      · obtain ⟨T₁, h₁⟩ := ih hin1 hs.1 T
        cases o with
        | normal => exact absurd rfl ho
        | broke => exact ⟨T₁, h₁⟩
        | continued => exact ⟨T₁, h₁⟩

/-! ## From the code to the tree -/

theorem Exec.while_normal {n : Nat} {x : Expr} {s : Stmt} {m m' : Mem V}
    {o : Outcome} (h : Exec I (.while n x s) m o m') : o = .normal := by
  cases h <;> rfl

theorem Exec.do_normal {n : Nat} {x : Expr} {s : Stmt} {m m' : Mem V}
    {o : Outcome} (h : Exec I (.do n s x) m o m') : o = .normal := by
  cases h <;> rfl

/-- A run that ends in `u` leaves the code of `s` as the tree says, with at
most `n` steps to go. -/
def Leaves (I : Interp V) (code : List Item) (u : MState V) (s : Stmt)
    (a : Nat) (loop : Nat × Nat) (m : Mem V) (n : Nat) : Prop :=
  ∃ o m' T' k, k ≤ n ∧ Exec I s m o m' ∧
    iter (mstep I code) k ⟨exitPos code a loop o, m', T'⟩ = some u

theorem leaves_of_reaches {u : MState V} (hu : halted code u) {s : Stmt}
    {a p n : Nat} {loop : Nat × Nat} {m m' : Mem V} {T T' : Nat → V}
    {o : Outcome} (he : Exec I s m o m')
    (hreach : Reaches (mstep I code) ⟨p, m, T⟩
      ⟨exitPos code a loop o, m', T'⟩)
    (hn : iter (mstep I code) n ⟨p, m, T⟩ = some u) :
    Leaves I code u s a loop m n := by
  obtain ⟨k, hk, hrun⟩ := hreach.of_run hn (mstep_halted hu)
  exact ⟨o, m', T', k, hk, he, hrun⟩

theorem Tests.of_run {u : MState V} (hu : halted code u) {p yes no n : Nat}
    {x : Expr} (h : Tests I code p x yes no) {m : Mem V} {T : Nat → V}
    (hn : iter (mstep I code) n ⟨p, m, T⟩ = some u) : ∃ b T' k, k ≤ n ∧
      x.holds I m = some b ∧ iter (mstep I code) k
        ⟨if b then yes else no, m, T'⟩ = some u := by
  obtain ⟨b, s, hb, ⟨T', rfl⟩, k, hk, hrun⟩ :=
    (h m T).of_run hn (mstep_halted hu) hu
  exact ⟨b, T', k, hk, hb, hrun⟩

/-- What the code does, the tree does. The outer induction is over the steps
that are left and pays for going round a loop once more; the inner one is
over the tree. -/
theorem Stands.backward (hd : Disciplined code) {u : MState V}
    (hu : halted code u) (n : Nat) : ∀ {s : Stmt} {b a p : Nat}
      {loop : Nat × Nat} {inDo : Bool} {m : Mem V} {T : Nat → V} {n' : Nat},
      Stands I code s b a loop p → s.noDoContinue inDo = true → n' ≤ n →
      iter (mstep I code) n' ⟨p, m, T⟩ = some u →
      Leaves I code u s a loop m n' := by
  induction n using Nat.strongRecOn with
  | ind n ihn =>
  intro s
  induction s with
  | null =>
      intro b a p loop inDo m T n' h hs hle hn
      exact leaves_of_reaches (o := .normal) hu .null (h.null m T) hn
  | set i x =>
      intro b a p loop inDo m T n' h hs hle hn
      obtain ⟨v, s, hv, ⟨T', rfl⟩, k, hk, hrun⟩ :=
        (h.set hd m T).of_run hn (mstep_halted hu) hu
      exact ⟨.normal, _, T', k, hk, .set hv, hrun⟩
  | setElem c i x =>
      intro b a p loop inDo m T n' h hs hle hn
      obtain ⟨⟨w, v⟩, s, hwv, ⟨T', rfl⟩, k, hk, hrun⟩ :=
        (h.setElem m T).of_run hn (mstep_halted hu) hu
      obtain ⟨w', hw, hmap⟩ := Option.bind_eq_some_iff.mp hwv
      obtain ⟨v', hv, heq⟩ := Option.map_eq_some_iff.mp hmap
      cases heq
      exact ⟨.normal, _, T', k, hk, .setElem hw hv, hrun⟩
  | «if» x s ih =>
      intro b a p loop inDo m T n' h hs hle hn
      obtain ⟨l, p₁, hin, htest⟩ := h.if hd
      obtain ⟨k₁, hk₁, h₁⟩ := iter_of_step (h.entry m T) hn (mstep_halted hu)
      obtain ⟨c, T₂, k₂, hk₂, hc, h₂⟩ := htest.of_run hu h₁
      cases c with
      | true =>
          obtain ⟨o, m', T', k, hk, he, hrun⟩ := ih hin hs (by omega) h₂
          exact ⟨o, m', T', k, by omega, .ifTrue hc he, hrun⟩
      | false => exact ⟨.normal, m, T₂, k₂, by omega, .ifFalse hc, h₂⟩
  | «else» x s1 s2 ih1 ih2 =>
      intro b a p loop inDo m T n' h hs hle hn
      simp only [Stmt.noDoContinue, Bool.and_eq_true] at hs
      obtain ⟨l₁, l₂, p₁, p₂, hin1, hin2, htest⟩ := h.else hd
      obtain ⟨k₁, hk₁, h₁⟩ := iter_of_step (h.entry m T) hn (mstep_halted hu)
      obtain ⟨c, T₂, k₂, hk₂, hc, h₂⟩ := htest.of_run hu h₁
      cases c with
      | true =>
          obtain ⟨o, m', T', k, hk, he, hrun⟩ := ih1 hin1 hs.1 (by omega) h₂
          exact ⟨o, m', T', k, by omega, .elseTrue hc he, hrun⟩
      | false =>
          obtain ⟨o, m', T', k, hk, he, hrun⟩ := ih2 hin2 hs.2 (by omega) h₂
          exact ⟨o, m', T', k, by omega, .elseFalse hc he, hrun⟩
  | «while» l x s ih =>
      intro b a p loop inDo m T n' h hs hle hn
      obtain ⟨l₁, p₁, hin, htest⟩ := h.while hd
      obtain ⟨k₁, hk₁, h₁⟩ := iter_of_step (h.entry m T) hn (mstep_halted hu)
      obtain ⟨c, T₂, k₂, hk₂, hc, h₂⟩ := htest.of_run hu h₁
      cases c with
      | false => exact ⟨.normal, m, T₂, k₂, by omega, .whileDone hc, h₂⟩
      | true =>
          obtain ⟨o, m₁, T₃, k₃, hk₃, he, h₃⟩ := ih hin hs (by omega) h₂
          by_cases ho : o = .broke
          · subst ho
            exact ⟨.normal, m₁, T₃, k₃, by omega, .whileBreak hc he, h₃⟩
          · have hback : exitPos code b (b, a) o = p := by
              cases o with
              | normal => exact h.pos_begin hd
              | broke => exact absurd rfl ho
              | continued => exact h.pos_begin hd
            rw [hback] at h₃
            obtain ⟨o', m₂, T₄, k₄, hk₄, hw, h₄⟩ :=
              ihn k₃ (by omega) h hs (Nat.le_refl k₃) h₃
            cases hw.while_normal
            exact ⟨.normal, m₂, T₄, k₄, by omega, .whileLoop hc he ho hw, h₄⟩
  | «do» l s x ih =>
      intro b a p loop inDo m T n' h hs hle hn
      obtain ⟨l₁, hin, hlab, htest⟩ := h.do hd
      obtain ⟨o, m₁, T₁, k₁, hk₁, he, h₁⟩ := ih hin hs hle hn
      by_cases ho : o = .broke
      · subst ho
        exact ⟨.normal, m₁, T₁, k₁, hk₁, .doBreak he, h₁⟩
      · have hend : exitPos code l₁ (b, a) o = pos code l₁ := by
          cases o with
          | normal => rfl
          | broke => exact absurd rfl ho
          | continued => exact absurd rfl (he.not_continued hs)
        rw [hend] at h₁
        obtain ⟨k₂, hk₂, h₂⟩ := iter_of_step (hlab m₁ T₁) h₁ (mstep_halted hu)
        obtain ⟨c, T₃, k₃, hk₃, hc, h₃⟩ := htest.of_run hu h₂
        cases c with
        | false =>
            exact ⟨.normal, m₁, T₃, k₃, by omega, .doDone he ho hc, h₃⟩
        | true =>
            obtain ⟨o', m₂, T₄, k₄, hk₄, hw, h₄⟩ :=
              ihn k₃ (by omega) h hs (Nat.le_refl k₃) h₃
            cases hw.do_normal
            exact ⟨.normal, m₂, T₄, k₄, by omega, .doLoop he ho hc hw, h₄⟩
  | «break» l =>
      intro b a p loop inDo m T n' h hs hle hn
      exact leaves_of_reaches (o := .broke) hu .break (h.break hd m T) hn
  | «continue» l =>
      intro b a p loop inDo m T n' h hs hle hn
      exact leaves_of_reaches (o := .continued) hu .continue
        (h.continue hd m T) hn
  | seq s1 s2 ih1 ih2 =>
      intro b a p loop inDo m T n' h hs hle hn
      simp only [Stmt.noDoContinue, Bool.and_eq_true] at hs
      rcases h.seq hd with ⟨rfl, hin⟩ | ⟨rfl, hin⟩ | ⟨l, hin1, hin2⟩
      · obtain ⟨o, m', T', k, hk, he, hrun⟩ := ih2 hin hs.2 hle hn
        exact ⟨o, m', T', k, hk, .seqNext .null he, hrun⟩
      · obtain ⟨o, m', T', k, hk, he, hrun⟩ := ih1 hin hs.1 hle hn
        by_cases ho : o = .normal
        · subst ho
          exact ⟨_, m', T', k, hk, .seqNext he .null, hrun⟩
        · exact ⟨o, m', T', k, hk, .seqExit he ho, hrun⟩
      · obtain ⟨o, m₁, T₁, k₁, hk₁, he, h₁⟩ := ih1 hin1 hs.1 hle hn
        cases o with
        | normal =>
            obtain ⟨o, m', T', k, hk, he', hrun⟩ :=
              ih2 hin2 hs.2 (by omega) h₁
            exact ⟨o, m', T', k, by omega, .seqNext he he', hrun⟩
        | broke =>
            exact ⟨_, m₁, T₁, k₁, hk₁, .seqExit he (by simp), h₁⟩
        | continued =>
            exact ⟨_, m₁, T₁, k₁, hk₁, .seqExit he (by simp), h₁⟩

/-! ## Accepted programs -/

/-- Outside loops a statement ends normally. -/
theorem Exec.normal {s : Stmt} {m m' : Mem V} {o : Outcome}
    (h : Exec I s m o m') {lo : Nat} (hin : s.LoopsIn none lo) :
    o = .normal := by
  induction h generalizing lo with
  | null | set _ | setElem _ _ | ifFalse _ => rfl
  | whileDone _ | whileBreak _ _ _ | whileLoop _ _ _ _ _ _ => rfl
  | doBreak _ _ | doDone _ _ _ _ | doLoop _ _ _ _ _ _ => rfl
  | ifTrue hx hb ih => exact ih hin
  | elseTrue hx hb ih => exact ih hin.1
  | elseFalse hx hb ih => exact ih hin.2
  | «break» => cases hin
  | «continue» => cases hin
  | seqNext h1 h2 ih1 ih2 => exact ih2 hin.2
  | seqExit h1 ho ih => exact ih hin.1

theorem LabelDiscipline.disciplined {g : GState} (h : LabelDiscipline g) :
    Disciplined g.out := by
  refine ⟨fun l => ?_, fun i l hi hl => (h.targets i l hi hl).2⟩
  by_cases hmem : .label l ∈ g.out
  · obtain ⟨hlo, hhi⟩ := h.only l hmem
    exact Nat.le_of_eq (h.once l hlo hhi)
  · rw [placed, List.count_eq_zero.mpr hmem]
    exact Nat.zero_le 1

/-- Running `code` from the label `b`, with the temporaries `T`, comes to the
label `a` with the memory `m'`. -/
def RunsBetween (I : Interp V) (code : List Item) (b a : Nat) (m : Mem V)
    (T : Nat → V) (m' : Mem V) : Prop :=
  ∃ p q T', labelPos code b = some p ∧ labelPos code a = some q ∧
    Reaches (mstep I code) ⟨p, m, T⟩ ⟨q, m', T'⟩

theorem ProgramCode.runs_iff {s : Stmt} {g : GState} {k : Chunk}
    (hk : ProgramCode s g k) (hw : s.WellTyped) (hin : s.LoopsIn none 0)
    (hdo : s.noDoContinue false = true)
    (hplain : s.noLogicalOperand = true) (m m' : Mem V) (T : Nat → V) :
    RunsBetween I g.out 1 2 m T m' ↔ Exec I s m .normal m' := by
  have hd := (hk.labelDiscipline hin).disciplined
  have hall : Segment g.out 0 (.label 1 :: k.items ++ [Item.label 2]) := by
    rw [hk.out]
    exact List.prefix_rfl
  have hlast := hall.right
  have hlen : (Item.label 1 :: k.items).length = k.items.length + 1 := rfl
  rw [hlen, Nat.zero_add] at hlast
  have hafter : pos g.out 2 = k.items.length + 1 := pos_of_segment hd hlast
  have hbegin : pos g.out 1 = 0 := pos_of_segment hd hall.left
  have hmem1 : .label 1 ∈ g.out := by rw [hk.out]; simp
  have hmem2 : .label 2 ∈ g.out := by rw [hk.out]; simp
  have hpos1 := labelPos_of_mem hmem1
  have hpos2 := labelPos_of_mem hmem2
  rw [hbegin] at hpos1
  have hstands : Stands I g.out s 1 2 (0, 0) 0 := by
    refine ⟨hw, hplain, by decide, by decide, _, _, _, hk.code, hall.left, ?_⟩
    intro m T
    rw [hafter, Nat.zero_add, Nat.add_comm]
    exact Reaches.refl _
  constructor
  · intro ⟨p, q, T', hp, hq, hreach⟩
    cases hpos1.symm.trans hp
    cases hpos2.symm.trans hq
    have hend : ∀ m T, mstep I g.out ⟨pos g.out 2, m, T⟩ =
        some ⟨pos g.out 2 + 1, m, T⟩ := by
      intro m T
      rw [hafter]
      exact mstep_label hlast.head m T
    have hhalt : ∀ m T, halted g.out (⟨pos g.out 2 + 1, m, T⟩ : MState V) := by
      intro m T
      show pos g.out 2 + 1 = g.out.length
      rw [hafter, hk.out]
      simp
    obtain ⟨n, hn⟩ := hreach.trans (Reaches.single (hend m' T'))
    obtain ⟨o, m₁, T₁, j, -, he, hrun⟩ :=
      hstands.backward hd (hhalt m' T') n hdo (Nat.le_refl n) hn
    cases he.normal hin
    -- From the last label both runs take the same last step.
    obtain ⟨i, -, hi⟩ := iter_of_step (hend m₁ T₁) hrun
      (mstep_halted (hhalt m' T'))
    cases i with
    | zero =>
        cases hi
        exact he
    | succ i =>
        rw [iter_succ_of_none (mstep_halted (hhalt m₁ T₁))] at hi
        cases hi
  · intro he
    obtain ⟨T', hreach⟩ := hstands.forward hd he hdo T
    exact ⟨0, _, T', hpos1, hpos2, hreach⟩

theorem program_translation {toks : List Token} {o : Output}
    (h : program toks = .ok o) (hdo : o.stmt.noDoContinue false = true)
    (hplain : o.stmt.noLogicalOperand = true) (I : Interp V) (m m' : Mem V)
    (T : Nat → V) :
    RunsBetween I o.gen.out o.begin o.after m T m' ↔
      Exec I o.stmt m .normal m' := by
  obtain ⟨hw, hin, -⟩ := program_built h
  obtain ⟨hbegin, hafter, k, hk⟩ := program_code h
  rw [hbegin, hafter]
  exact hk.runs_iff hw hin hdo hplain m m' T

/-- Integers without overflow; a `Real` counts as the `int` in front of its
point, and dividing by 0 has no result. -/
def intInterp : Interp Int where
  num n := n
  real r := r.whole
  tt := 1
  ff := 0
  truth v := v != 0
  truth_tt := rfl
  truth_ff := rfl
  arith op v w := match op with
    | .add => some (v + w)
    | .sub => some (v - w)
    | .mul => some (v * w)
    | .div => if w = 0 then none else some (v.tdiv w)
  minus v := some (-v)
  rel op v w := some (match op with
    | .eq => v == w
    | .ne => v != w
    | .lt => decide (v < w)
    | .le => decide (v ≤ w)
    | .ge => decide (v ≥ w)
    | .gt => decide (v > w))

theorem program_translation_loop : ∃ o : Output,
    main ("\x7b int i; int[4] a; while (true) \x7b i = i + 1; " ++
      "if (i == 2 || i > 3) continue; a[i] = 2 / i; if (i > 4) break; \x7d \x7d")
      = .ok o ∧ ∀ m m' T,
        RunsBetween intInterp o.gen.out o.begin o.after m T m' ↔
          Exec intInterp o.stmt m .normal m' := by
  obtain ⟨o, ho, hcond⟩ := exists_of_okAnd
    (p := fun o => o.stmt.noDoContinue false && o.stmt.noLogicalOperand)
    (x := main ("\x7b int i; int[4] a; while (true) \x7b i = i + 1; " ++
      "if (i == 2 || i > 3) continue; a[i] = 2 / i; if (i > 4) break; \x7d \x7d"))
    (by decide +kernel)
  rw [Bool.and_eq_true] at hcond
  exact ⟨o, ho, program_translation ho hcond.1 hcond.2 intInterp⟩

end LearningLinux.FrontEnd
