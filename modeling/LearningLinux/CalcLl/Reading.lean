import LearningLinux.CalcLl.Model

/-!
# How a text is read, and what comes out

Reading a text and computing with it are taken apart here. `Reads` says how
any text at all is read, correct or not, by the productions of the grammar:
the result is a tree, whose leaves are numbers, signs without digits, or, at
the very end, the place where no production applies. `Tree.eval` computes from
left to right and stops there.

The program does both at once, and is the same (`reads_run`): it computes what
the tree of the text says, with whatever value for a sign without digits.
-/

namespace LearningLinux.CalcLl

open LearningLinux.Lib

/-! ## Trees -/

inductive Tree where
  | number (v : Int)
  /-- A sign, with the text behind it. -/
  | bare (rest : List UInt8)
  | bin (o : Op) (l r : Tree)
  /-- No factor begins here. -/
  | bad
  /-- A parenthesis is open and this is the token. -/
  | unclosed (t : Tree) (token : UInt8)

/-- The message at the place where the reading has come to its end. -/
def Tree.message : Tree → Option Message
  | .number _ => none
  | .bare _ => none
  | .bin _ l r => l.message <|> r.message
  | .bad => some (.error "bad factor")
  | .unclosed t token => t.message <|> some (.mismatch ')'.toUInt8 token)

/-- From left to right. -/
def Tree.eval (junk : List UInt8 → Int32) : Tree → Except (Stop Message) Int
  | .number v => checked v
  | .bare rest => .ok (junk rest).toInt
  | .bin o l r => do
      let value ← l.eval junk
      let operand ← r.eval junk
      o.apply value operand
  | .bad => .error (.exit (.error "bad factor"))
  | .unclosed t token => do
      let _ ← t.eval junk
      .error (.exit (.mismatch ')'.toUInt8 token))

/-- A tree of the grammar. -/
def Tree.Proper : Tree → Prop
  | .number _ => True
  | .bin _ l r => l.Proper ∧ r.Proper
  | .bare _ => False
  | .bad => False
  | .unclosed _ _ => False

/-! ## The productions -/

/-- The two kinds of operators. -/
inductive Level where
  | mul
  | add
deriving DecidableEq, Repr

def Level.first : Level → Op
  | .mul => .times
  | .add => .plus

def Level.second : Level → Op
  | .mul => .over
  | .add => .minus

def Level.bad : Level → String
  | .mul => "bad term"
  | .add => "bad expr"

def Level.Has (l : Level) (o : Op) : Prop := o = l.first ∨ o = l.second

/-- One of these operators is next. -/
def Level.Next (l : Level) (c : UInt8) : Prop :=
  c = l.first.char ∨ c = l.second.char

instance (l : Level) (c : UInt8) : Decidable (l.Next c) :=
  inferInstanceAs (Decidable (_ ∨ _))

/-- `factor`; `term` and `expr`, which are chains; and the rest of a chain
behind what has been read of it. -/
inductive Nt where
  | factor
  | chain (l : Level)
  | tail (l : Level) (t : Tree)

def Level.operand : Level → Nt
  | .mul => .factor
  | .add => .chain .mul

def Nt.expr : Nt := .chain .add

inductive Reads : Nt → List UInt8 → Tree → List UInt8 → Prop where
  | number {u rest : List UInt8} {v : Int} : Numeral u v →
      isdigit (peek rest) = false → Reads .factor (u ++ rest) (.number v) rest
  | bare {c : UInt8} {rest : List UInt8} : isSign c = true →
      isdigit (peek rest) = false → Reads .factor (c :: rest) (.bare rest) rest
  | bad {w : List UInt8} : peek w ≠ '('.toUInt8 →
      (isdigit (peek w) || isSign (peek w)) = false → Reads .factor w .bad w
  | paren {w rest : List UInt8} {t : Tree} :
      Reads (.chain .add) w t (')'.toUInt8 :: rest) → t.message = none →
      Reads .factor ('('.toUInt8 :: w) t rest
  | unclosed {w rest : List UInt8} {t : Tree} : Reads (.chain .add) w t rest →
      t.message = none → peek rest ≠ ')'.toUInt8 →
      Reads .factor ('('.toUInt8 :: w) (.unclosed t (peek rest)) rest
  | inner {w rest : List UInt8} {t : Tree} : Reads (.chain .add) w t rest →
      t.message ≠ none → Reads .factor ('('.toUInt8 :: w) t rest
  | chain {l : Level} {w rest rest' : List UInt8} {t t' : Tree} :
      Reads l.operand w t rest → Reads (.tail l t) rest t' rest' →
      Reads (.chain l) w t' rest'
  | ends {l : Level} {w : List UInt8} {t : Tree} : ¬ l.Next (peek w) →
      Reads (.tail l t) w t w
  | stuck {l : Level} {w : List UInt8} {t : Tree} : t.message ≠ none →
      Reads (.tail l t) w t w
  | more {l : Level} {o : Op} {w rest rest' : List UInt8} {t r t' : Tree} :
      l.Has o → t.message = none → Reads l.operand w r rest →
      Reads (.tail l (.bin o t r)) rest t' rest' →
      Reads (.tail l t) (o.char :: w) t' rest'

/-! ## Evaluation -/

variable {junk junk' : List UInt8 → Int32} {t t' : Tree} {v : Int} {o : Op}
  {e : Stop Message} {w rest : List UInt8} {l : Level}

theorem eval_bin_ok {r : Tree} : (Tree.bin o t r).eval junk = .ok v ↔
    ∃ a b, t.eval junk = .ok a ∧ r.eval junk = .ok b ∧ o.apply a b = .ok v := by
  simp [Tree.eval, except_bind_ok]

theorem eval_bin_left {r : Tree} (h : t.eval junk = .error e) :
    (Tree.bin o t r).eval junk = .error e := by
  rw [Tree.eval, h]
  rfl

theorem checked_ne_exit {m : Message} : checked v ≠ .error (.exit m) := by
  rw [checked]
  split <;> nofun

theorem apply_ne_exit {a b : Int} {m : Message} :
    o.apply a b ≠ .error (.exit m) := by
  cases o with
  | «over» =>
      rw [Op.apply]
      split
      · nofun
      · exact checked_ne_exit
  | times => exact checked_ne_exit
  | plus => exact checked_ne_exit
  | minus => exact checked_ne_exit

/-- The message of a tree tells whether it has a value. -/
theorem message_of_ok (h : t.eval junk = .ok v) : t.message = none := by
  induction t generalizing v with
  | number _ => rfl
  | bare _ => rfl
  | bin o l r ihl ihr =>
      obtain ⟨a, b, hl, hr, -⟩ := eval_bin_ok.mp h
      rw [Tree.message, ihl hl, ihr hr]
      rfl
  | bad => cases h
  | unclosed t token _ =>
      obtain ⟨a, -, hexit⟩ := except_bind_ok.mp h
      cases hexit

theorem message_of_exit {m : Message} (h : t.eval junk = .error (.exit m)) :
    t.message = some m := by
  induction t with
  | number _ => exact absurd h checked_ne_exit
  | bare _ => cases h
  | bin o l r ihl ihr =>
      cases hl : l.eval junk with
      | error e =>
          rw [eval_bin_left hl] at h
          cases h
          rw [Tree.message, ihl hl]
          rfl
      | ok a =>
          rw [Tree.message, message_of_ok hl]
          rw [Tree.eval, hl] at h
          cases hr : r.eval junk with
          | error e =>
              rw [hr] at h
              cases h
              exact ihr hr
          | ok b =>
              rw [hr] at h
              exact absurd h apply_ne_exit
  | bad =>
      cases h
      rfl
  | unclosed t token ih =>
      cases ht : t.eval junk with
      | error e =>
          rw [Tree.eval, ht] at h
          cases h
          rw [Tree.message, ih ht]
          rfl
      | ok a =>
          rw [Tree.eval, ht] at h
          cases h
          rw [Tree.message, message_of_ok ht]
          rfl

/-- The grammar has no place for an uninitialised value. -/
theorem Tree.Proper.eval_eq (h : t.Proper) : t.eval junk = t.eval junk' := by
  induction t with
  | number _ => rfl
  | bin o l r ihl ihr => rw [Tree.eval, Tree.eval, ihl h.1, ihr h.2]
  | bare _ => cases h
  | bad => cases h
  | unclosed _ _ _ => cases h

theorem Tree.Proper.message (h : t.Proper) : t.message = none := by
  induction t with
  | number _ => rfl
  | bin o l r ihl ihr =>
      rw [Tree.message, ihl h.1, ihr h.2]
      rfl
  | bare _ => cases h
  | bad => cases h
  | unclosed _ _ _ => cases h

/-! ## The program reads and evaluates -/

/-- An operand of `term` and of `expr`. -/
def operandOf (junk : List UInt8 → Int32) (fuel : Nat) : Level → Calc Int
  | .mul => factor junk fuel
  | .add => CalcLl.term (factor junk fuel) fuel

def loopOf (junk : List UInt8 → Int32) (l : Level) (fuel : Nat) :
    Nat → Int → Calc Int :=
  opLoop l.first l.second l.bad (operandOf junk fuel l)

/-- `term` and `expr` -/
def chainOf (junk : List UInt8 → Int32) (l : Level) (fuel : Nat) :
    Calc Int := do
  let value ← operandOf junk fuel l
  loopOf junk l fuel fuel value

/-- The value of the tree, in front of the rest. -/
def outcome (junk : List UInt8 → Int32) (t : Tree) (rest : List UInt8) :
    Except (Stop Message) (Int × Lookahead) :=
  (t.eval junk).map fun v => (v, getchar rest)

theorem outcome_ok (h : t.eval junk = .ok v) :
    outcome junk t rest = .ok (v, getchar rest) := by
  rw [outcome, h]
  rfl

theorem outcome_error (h : t.eval junk = .error e) :
    outcome junk t rest = .error e := by
  rw [outcome, h]
  rfl

/-- The program does what the tree says. -/
def Follows (junk : List UInt8 → Int32) (w : List UInt8) (t : Tree)
    (rest : List UInt8) : Nt → Prop
  | .factor =>
      Settles (fun fuel => factor junk fuel (getchar w)) (outcome junk t rest)
  | .chain l =>
      Settles (fun fuel => chainOf junk l fuel (getchar w))
        (outcome junk t rest)
  | .tail l acc =>
      (∀ e, acc.eval junk = .error e → t.eval junk = .error e) ∧
        ∀ a, acc.eval junk = .ok a → ∃ n, ∀ m ≥ n, ∀ k ≥ n,
          loopOf junk l m k a (getchar w) = outcome junk t rest

theorem factor_number {fuel : Nat} (hparen : peek w ≠ '('.toUInt8)
    (h : (isdigit (peek w) || isSign (peek w)) = true) :
    factor junk (fuel + 1) (getchar w) = number junk (getchar w) := by
  show (if peek w = _ then _ else
    if (isdigit (peek w) || isSign (peek w)) = true then _ else _ :
      Calc Int) _ = _
  rw [if_neg hparen, if_pos h]

theorem ne_paren {c : UInt8} (h : (isdigit c || isSign c) = true) :
    c ≠ '('.toUInt8 := by
  intro heq
  subst heq
  exact absurd h (by decide)

theorem factor_bad {fuel : Nat} (hparen : peek w ≠ '('.toUInt8)
    (h : (isdigit (peek w) || isSign (peek w)) = false) :
    factor junk (fuel + 1) (getchar w) =
      .error (.exit (.error "bad factor")) := by
  show (if peek w = _ then _ else
    if (isdigit (peek w) || isSign (peek w)) = true then _ else _ :
      Calc Int) _ = _
  rw [if_neg hparen, if_neg (by simp [h])]
  rfl

theorem factor_paren {fuel : Nat} :
    factor junk (fuel + 1) (getchar ('('.toUInt8 :: w)) =
      (expr junk fuel >>= fun value => do
        matchToken ')'.toUInt8
        pure value) (getchar w) := by
  show (matchToken '('.toUInt8 >>= fun _ => expr junk fuel >>= fun value => do
    matchToken ')'.toUInt8
    pure value) (getchar ('('.toUInt8 :: w)) = _
  exact bind_run (expect_run _ _)

theorem numeral_run {u : List UInt8} (hu : Numeral u v)
    (h : isdigit (peek rest) = false) :
    number junk (getchar (u ++ rest)) = outcome junk (.number v) rest := by
  obtain ⟨c, u', rfl⟩ := List.exists_cons_of_ne_nil hu.ne_nil
  obtain ⟨hne, hv, hrest⟩ := scan_numeral hu h
  show (scanInt _ ((c :: u') ++ rest)).map _ = _
  rw [scanInt, if_neg hne, hv, hrest, outcome, Tree.eval]
  cases checked v <;> rfl

theorem bare_run {c : UInt8} (hc : isSign c = true)
    (h : isdigit (peek rest) = false) :
    number junk (getchar (c :: rest)) = outcome junk (.bare rest) rest := by
  obtain ⟨hnil, hrest⟩ := scan_bare hc h
  show (scanInt _ (c :: rest)).map _ = _
  rw [scanInt, if_pos hnil, hrest]
  rfl

/-! ### The loops -/

theorem opLoop_ends {fuel m : Nat} {a : Int} (h : ¬ l.Next (peek w)) :
    loopOf junk l m (fuel + 1) a (getchar w) = .ok (a, getchar w) := by
  show (if l.Next (peek w) then _ else pure a : Calc Int) _ = _
  rw [if_neg h]
  rfl

section OpLoop

variable {first second : Op} {bad : String} {operand : Calc Int} {fuel : Nat}
  {a : Int}

theorem opLoop_first :
    opLoop first second bad operand (fuel + 1) a (getchar (first.char :: w)) =
      (operand >>= fun right => do
        let value ← (first.apply a right : Except _ _)
        opLoop first second bad operand fuel value) (getchar w) := by
  show (if first.char = first.char ∨ first.char = second.char then
    (if first.char = first.char then _ else _) else _ : Calc Int) _ = _
  rw [if_pos (Or.inl rfl), if_pos rfl]
  exact bind_run (expect_run _ _)

theorem opLoop_second (hne : second.char ≠ first.char) :
    opLoop first second bad operand (fuel + 1) a (getchar (second.char :: w)) =
      (operand >>= fun right => do
        let value ← (second.apply a right : Except _ _)
        opLoop first second bad operand fuel value) (getchar w) := by
  show (if second.char = first.char ∨ second.char = second.char then
    (if second.char = first.char then _ else
      if second.char = second.char then _ else _) else _ : Calc Int) _ = _
  rw [if_pos (Or.inr rfl), if_neg hne, if_pos rfl]
  exact bind_run (expect_run _ _)

end OpLoop

theorem opLoop_more {fuel m : Nat} {a : Int} (h : l.Has o) :
    loopOf junk l m (fuel + 1) a (getchar (o.char :: w)) =
      (operandOf junk m l >>= fun right => do
        let value ← (o.apply a right : Except _ _)
        loopOf junk l m fuel value) (getchar w) := by
  rcases h with rfl | rfl
  · exact opLoop_first
  · exact opLoop_second (by cases l <;> decide)

/-- An operand that has been read, and one that stops the program. -/
theorem operand_bind {x : Calc Int} {f : Int → Calc Int} {s : Lookahead}
    (hx : x s = outcome junk t rest) : (x >>= f) s =
      match t.eval junk with
      | .ok a => f a (getchar rest)
      | .error e => .error e := by
  cases ht : t.eval junk with
  | ok a => exact bind_run (hx.trans (outcome_ok ht))
  | error e => exact bind_error (hx.trans (outcome_error ht))

theorem follows_chain {t' : Tree} {rest' : List UInt8}
    (hoperand : Follows junk w t rest l.operand)
    (htail : Follows junk rest t' rest' (.tail l t)) :
    Follows junk w t' rest' (.chain l) := by
  have hop : Settles (fun fuel => operandOf junk fuel l (getchar w))
      (outcome junk t rest) := by
    cases l <;> exact hoperand
  obtain ⟨n, hn⟩ := hop
  obtain ⟨herror, hok⟩ := htail
  cases ht : t.eval junk with
  | error e =>
      refine ⟨n, fun fuel hfuel => ?_⟩
      rw [outcome_error (herror e ht)]
      exact bind_error ((hn fuel hfuel).trans (outcome_error ht))
  | ok a =>
      obtain ⟨m, hm⟩ := hok a ht
      refine ⟨max n m, fun fuel hfuel => ?_⟩
      refine (bind_run ((hn fuel (by omega)).trans (outcome_ok ht))).trans ?_
      exact hm fuel (by omega) fuel (by omega)

theorem follows_more {r t' : Tree} {rest' : List UInt8} (h : l.Has o)
    (hoperand : Follows junk w r rest l.operand)
    (htail : Follows junk rest t' rest' (.tail l (.bin o t r))) :
    Follows junk (o.char :: w) t' rest' (.tail l t) := by
  have hop : Settles (fun fuel => operandOf junk fuel l (getchar w))
      (outcome junk r rest) := by
    cases l <;> exact hoperand
  obtain ⟨n, hn⟩ := hop
  obtain ⟨herror, hok⟩ := htail
  refine ⟨fun e ht => herror e (eval_bin_left ht), fun a ht => ?_⟩
  cases hr : r.eval junk with
  | error e =>
      have hbin : (Tree.bin o t r).eval junk = .error e := by
        rw [Tree.eval, ht, hr]
        rfl
      refine ⟨n + 1, fun m hm k hk => ?_⟩
      obtain ⟨k, rfl⟩ : ∃ k', k = k' + 1 := ⟨k - 1, by omega⟩
      rw [opLoop_more h, outcome_error (herror e hbin)]
      exact bind_error ((hn m (by omega)).trans (outcome_error hr))
  | ok b =>
      have hbin : (Tree.bin o t r).eval junk = o.apply a b := by
        rw [Tree.eval, ht, hr]
        rfl
      cases hv : o.apply a b with
      | error e =>
          refine ⟨n + 1, fun m hm k hk => ?_⟩
          obtain ⟨k, rfl⟩ : ∃ k', k = k' + 1 := ⟨k - 1, by omega⟩
          rw [opLoop_more h, outcome_error (herror e (hbin.trans hv))]
          refine (bind_run ((hn m (by omega)).trans (outcome_ok hr))).trans ?_
          rw [hv]
          rfl
      | ok v =>
          obtain ⟨n', hn'⟩ := hok v (hbin.trans hv)
          refine ⟨max n n' + 1, fun m hm k hk => ?_⟩
          obtain ⟨k, rfl⟩ : ∃ k', k = k' + 1 := ⟨k - 1, by omega⟩
          rw [opLoop_more h]
          refine (bind_run ((hn m (by omega)).trans (outcome_ok hr))).trans ?_
          rw [hv]
          exact hn' m (by omega) k (by omega)

theorem follows_paren {x : Except (Stop Message) (Int × Lookahead)}
    (h : Follows junk w t rest .expr)
    (hx : (match t.eval junk with
      | .ok v => (do
          matchToken ')'.toUInt8
          pure v : Calc Int) (getchar rest)
      | .error e => .error e) = x) :
    Settles (fun fuel => factor junk fuel (getchar ('('.toUInt8 :: w))) x := by
  obtain ⟨n, hn⟩ := h
  refine ⟨n + 1, fun fuel hfuel => ?_⟩
  obtain ⟨fuel, rfl⟩ : ∃ k, fuel = k + 1 := ⟨fuel - 1, by omega⟩
  exact (factor_paren.trans (operand_bind (hn fuel (by omega)))).trans hx

/-- The program does what the tree of its text says. -/
theorem reads_run (junk : List UInt8 → Int32) {nt : Nt}
    (h : Reads nt w t rest) : Follows junk w t rest nt := by
  induction h with
  | number hu hrest =>
      refine ⟨1, fun fuel hfuel => ?_⟩
      obtain ⟨fuel, rfl⟩ : ∃ k, fuel = k + 1 := ⟨fuel - 1, by omega⟩
      exact (factor_number (ne_paren hu.head) hu.head).trans
        (numeral_run hu hrest)
  | bare hc hrest =>
      refine ⟨1, fun fuel hfuel => ?_⟩
      obtain ⟨fuel, rfl⟩ : ∃ k, fuel = k + 1 := ⟨fuel - 1, by omega⟩
      exact (factor_number (ne_paren (by simp [peek_cons, hc]))
        (by simp [peek_cons, hc])).trans (bare_run hc hrest)
  | bad hparen hnot =>
      refine ⟨1, fun fuel hfuel => ?_⟩
      obtain ⟨fuel, rfl⟩ : ∃ k, fuel = k + 1 := ⟨fuel - 1, by omega⟩
      exact factor_bad hparen hnot
  | @paren w rest t _ hnone ih =>
      refine follows_paren ih ?_
      rw [outcome]
      cases t.eval junk with
      | ok v => exact bind_run (expect_run _ _)
      | error e => rfl
  | @unclosed w rest t _ hnone htoken ih =>
      refine follows_paren ih ?_
      rw [outcome, Tree.eval]
      cases t.eval junk with
      | ok v => exact bind_error (expect_error htoken)
      | error e => rfl
  | @inner w rest t _ hsome ih =>
      refine follows_paren ih ?_
      cases ht : t.eval junk with
      | ok v => exact absurd (message_of_ok ht) hsome
      | error e => exact (outcome_error ht).symm
  | chain _ _ ih ihtail => exact follows_chain ih ihtail
  | @ends l w t hnext =>
      refine ⟨fun _ he => he, fun a ht => ⟨1, fun m hm k hk => ?_⟩⟩
      obtain ⟨k, rfl⟩ : ∃ k', k = k' + 1 := ⟨k - 1, by omega⟩
      rw [outcome_ok ht]
      exact opLoop_ends hnext
  | stuck hsome =>
      exact ⟨fun _ he => he, fun a ht => absurd (message_of_ok ht) hsome⟩
  | more hop _ _ _ ih ihtail => exact follows_more hop ih ihtail

end LearningLinux.CalcLl
