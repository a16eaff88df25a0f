import LearningLinux.CalcLl1.Sentences

/-!
# Which sentences are accepted

A plain sentence is evaluated: by induction on the sentence, each procedure
returns the value of its part, and a tail what its caller needs to come to the
value (`plain_returns`).

For any other sentence, or for one in front of a closing parenthesis, no
procedure but `factor` comes to a rational number (`spoils`): it ends in
`error`, or it has computed with a variable that holds none.
-/

namespace LearningLinux.CalcLl1

open LearningLinux.Lib

variable {out : Outside} {w : List UInt8} {x y : Calc} {s s' : Lookahead}
  {a : Value} {g : Value → Value → Value}

/-! ## Numbers -/

theorem number_run {c : UInt8} {text : List UInt8} {a : Value}
    (h : ∀ value, scanDouble out value (c :: text) =
      ((if (scanDecimal (c :: text)).digits = [] then value else a), w)) :
    number out (getchar (c :: text)) = .ok
      ((if (scanDecimal (c :: text)).digits = [] then out.junk text else a),
        getchar w) := by
  show Except.ok ((scanDouble out (out.junk text) (c :: text)).1,
    getchar (scanDouble out (out.junk text) (c :: text)).2) = _
  rw [h]

theorem number_numeral {u : List UInt8} {v : Int} (hu : Numeral u v)
    (h : Closed (peek w)) :
    number out (getchar (u ++ w)) = .ok (some (v : ℚ), getchar w) := by
  obtain ⟨c, u', rfl⟩ := List.exists_cons_of_ne_nil hu.ne_nil
  obtain ⟨hne, hv, hrest⟩ := scan_numeral hu h.1
  rw [List.cons_append] at hne hv hrest ⊢
  rw [number_run (a := some (v : ℚ)) (w := w) fun value => by
    rw [scanDouble, hrest, h.2, if_neg Bool.false_ne_true, if_neg hne,
      if_neg hne, hv], if_neg hne]

/-- At most one sign makes a number. -/
theorem numeral_of_signs {signs : List AddOp} {ds : List UInt8} (ne : ds ≠ [])
    (digit : ∀ d ∈ ds, isdigit d = true) (h : signs.length ≤ 1) :
    ∃ v : Int, Numeral (signs.map AddOp.char ++ ds) v ∧
      signs.foldr AddOp.signed (some (decimal ds : ℚ)) = some (v : ℚ) := by
  match signs, h with
  | [], _ => exact ⟨_, .plain ne digit, rfl⟩
  | [.plus], _ => exact ⟨_, .plus ne digit, rfl⟩
  | [.minus], _ =>
      refine ⟨_, .minus ne digit, ?_⟩
      simp [AddOp.signed, neg]

theorem isSign_char (o : AddOp) : isSign o.char = true := by
  cases o <;> rfl

/-- Of the first of several signs comes nothing. -/
theorem number_bare (o o' : AddOp) (text : List UInt8) :
    number out (getchar (o.char :: o'.char :: text)) =
      .ok (out.junk (o'.char :: text), getchar (o'.char :: text)) := by
  have hclosed := o'.endsTerm.closed
  obtain ⟨hnil, hrest⟩ := scan_bare (isSign_char o)
    (show isdigit (peek (o'.char :: text)) = false from hclosed.1)
  rw [number_run (a := none) (w := o'.char :: text) fun value => by
    rw [scanDouble, hrest, peek_cons, hclosed.2, if_neg Bool.false_ne_true,
      if_pos hnil, if_pos hnil], if_pos hnil]

theorem signs_run {fuel : Nat} (o o' : AddOp) (text : List UInt8) :
    factor out (fuel + 1) (getchar (o.char :: o'.char :: text)) =
      .ok (out.junk (o'.char :: text), getchar (o'.char :: text)) :=
  (factor_number (by simp [peek_cons, isSign_char])).trans
    (number_bare o o' text)

/-! ## Plain sentences -/

/-- What the procedures return in front of a token that may follow. -/
def Returns (out : Outside) : (nt : Nt) → Sentence nt → Prop
  | .factor, s => ∀ w, Closed (peek w) →
      Settles (fun fuel => factor out fuel (getchar (s.text ++ w)))
        (.ok ((s.value : Value), getchar w))
  | .factorTail, s => ∀ w, EndsTerm (peek w) →
      ∃ r, (∀ acc, mul acc r = (s.value : Value → Value) acc) ∧
        ∃ n, ∀ m ≥ n, ∀ k ≥ n,
          factorTail (factor out m) k (getchar (s.text ++ w)) =
            .ok (r, getchar w)
  | .term, s => ∀ w, EndsTerm (peek w) →
      Settles (fun fuel => term (factor out fuel) fuel (getchar (s.text ++ w)))
        (.ok ((s.value : Value), getchar w))
  | .termTail, s => ∀ w, peek w = END_TOKEN →
      ∃ r, (∀ acc, add acc r = (s.value : Value → Value) acc) ∧
        ∃ n, ∀ m ≥ n, ∀ k ≥ n,
          termTail (term (factor out m) m) k (getchar (s.text ++ w)) =
            .ok (r, getchar w)
  | .expr, s => ∀ w, peek w = END_TOKEN →
      Settles (fun fuel => expr out fuel (getchar (s.text ++ w)))
        (.ok ((s.value : Value), getchar w))

/-- A tail is empty or begins with its operator. -/
theorem factorTail_peek (tail : Sentence .factorTail) :
    (∃ (o : MulOp) (text : List UInt8), tail.text = o.char :: text) ∨
      tail = .noFactor := by
  cases tail with
  | mulOp o f tail => exact Or.inl ⟨o, _, rfl⟩
  | noFactor => exact Or.inr rfl

theorem termTail_peek (tail : Sentence .termTail) :
    (∃ (o : AddOp) (text : List UInt8), tail.text = o.char :: text) ∨
      tail = .noTerm := by
  cases tail with
  | addOp o t tail => exact Or.inl ⟨o, _, rfl⟩
  | noTerm => exact Or.inr rfl

theorem closed_factorTail (tail : Sentence .factorTail)
    (h : Closed (peek w)) : Closed (peek (tail.text ++ w)) := by
  rcases factorTail_peek tail with ⟨o, text, heq⟩ | rfl
  · rw [heq]
    exact o.closed
  · exact h

theorem closed_termTail (tail : Sentence .termTail) (h : Closed (peek w)) :
    Closed (peek (tail.text ++ w)) := by
  rcases termTail_peek tail with ⟨o, text, heq⟩ | rfl
  · rw [heq]
    exact o.endsTerm.closed
  · exact h

theorem endsTerm_termTail (tail : Sentence .termTail)
    (h : EndsTerm (peek w)) : EndsTerm (peek (tail.text ++ w)) := by
  rcases termTail_peek tail with ⟨o, text, heq⟩ | rfl
  · rw [heq]
    exact o.endsTerm
  · exact h

theorem endsTerm_end (h : peek w = END_TOKEN) : EndsTerm (peek w) :=
  Or.inr (Or.inr h)

theorem ok_congr {a b : Value} (h : a = b) :
    (Except.ok (a, s) : Except (Stop Message) (Value × Lookahead)) =
      Except.ok (b, s) := by
  rw [h]

/-- A plain sentence is evaluated. -/
theorem plain_returns {nt : Nt} (e : Sentence nt) (h : e.Plain) :
    Returns out nt e := by
  induction e with
  | expr t tail iht ihtail =>
      intro w hw
      obtain ⟨n, hn⟩ := iht h.1 (tail.text ++ w)
        (endsTerm_termTail tail (endsTerm_end hw))
      obtain ⟨r, hr, m, hm⟩ := ihtail h.2 w hw
      refine ⟨max n m, fun fuel hfuel => ?_⟩
      have hrun := join_run (g := add) (hn fuel (by omega))
        (hm fuel (by omega) fuel (by omega))
      rw [← List.append_assoc] at hrun
      exact hrun.trans (ok_congr (hr t.value))
  | addOp o t tail iht ihtail =>
      intro w hw
      obtain ⟨n, hn⟩ := iht h.1 (tail.text ++ w)
        (endsTerm_termTail tail (endsTerm_end hw))
      obtain ⟨r, hr, m, hm⟩ := ihtail h.2 w hw
      refine ⟨o.join t.value r, fun acc => ?_, max n m + 1,
        fun i hi k hk => ?_⟩
      · exact (o.add_join acc t.value r).trans (hr (o.apply acc t.value))
      · obtain ⟨k, rfl⟩ : ∃ k', k = k' + 1 := ⟨k - 1, by omega⟩
        have hrun := join_run (g := o.join) (hn i (by omega))
          (hm i (by omega) k (by omega))
        rw [← List.append_assoc] at hrun
        exact (termTail_addOp o).trans hrun
  | noTerm =>
      intro w hw
      refine ⟨some 0, fun acc => add_unit acc, 1, fun i hi k hk => ?_⟩
      obtain ⟨k, rfl⟩ : ∃ k', k = k' + 1 := ⟨k - 1, by omega⟩
      exact termTail_ends hw
  | term f tail ihf ihtail =>
      intro w hw
      obtain ⟨n, hn⟩ := ihf h.1 (tail.text ++ w)
        (closed_factorTail tail hw.closed)
      obtain ⟨r, hr, m, hm⟩ := ihtail h.2 w hw
      refine ⟨max n m, fun fuel hfuel => ?_⟩
      have hrun := join_run (g := mul) (hn fuel (by omega))
        (hm fuel (by omega) fuel (by omega))
      rw [← List.append_assoc] at hrun
      exact hrun.trans (ok_congr (hr f.value))
  | mulOp o f tail ihf ihtail =>
      intro w hw
      obtain ⟨n, hn⟩ := ihf h.1 (tail.text ++ w)
        (closed_factorTail tail hw.closed)
      obtain ⟨r, hr, m, hm⟩ := ihtail h.2 w hw
      refine ⟨o.join f.value r, fun acc => ?_, max n m + 1,
        fun i hi k hk => ?_⟩
      · exact (o.mul_join acc f.value r).trans (hr (o.apply acc f.value))
      · obtain ⟨k, rfl⟩ : ∃ k', k = k' + 1 := ⟨k - 1, by omega⟩
        have hrun := join_run (g := o.join) (hn i (by omega))
          (hm i (by omega) k (by omega))
        rw [← List.append_assoc] at hrun
        exact (factorTail_mulOp o).trans hrun
  | noFactor =>
      intro w hw
      refine ⟨some 1, fun acc => mul_unit acc, 1, fun i hi k hk => ?_⟩
      obtain ⟨k, rfl⟩ : ∃ k', k = k' + 1 := ⟨k - 1, by omega⟩
      exact factorTail_ends hw
  | digits signs ds ne digit =>
      intro w hw
      obtain ⟨v, hv, hvalue⟩ := numeral_of_signs ne digit h
      refine ⟨1, fun fuel hfuel => ?_⟩
      obtain ⟨fuel, rfl⟩ : ∃ k, fuel = k + 1 := ⟨fuel - 1, by omega⟩
      exact (factor_number hv.head).trans
        ((number_numeral hv hw).trans (ok_congr hvalue.symm))
  | paren e _ => cases h

/-! ## The other sentences -/

/-- No rational number comes of it. -/
def Spoiled (r : Except (Stop Message) (Value × Lookahead)) : Prop :=
  ∀ (v : ℚ) s, r ≠ .ok (some v, s)

theorem spoiled_left (hg : Strict g) (h : Spoiled (x s)) :
    Spoiled ((do
      let l ← x
      let r ← y
      pure (g l r) : Calc) s) := by
  intro v s' heq
  obtain ⟨l, s₁, hx, hrest⟩ := bind_ok.mp heq
  obtain ⟨r, s₂, -, hpure⟩ := bind_ok.mp hrest
  cases l with
  | some l => exact h l s₁ hx
  | none =>
      have hboth := pure_ok.mp hpure
      rw [hg.left] at hboth
      cases hboth

theorem spoiled_right (hg : Strict g) (hx : x s = .ok (a, s'))
    (h : Spoiled (y s')) :
    Spoiled ((do
      let l ← x
      let r ← y
      pure (g l r) : Calc) s) := by
  intro v s'' heq
  rw [bind_run hx] at heq
  obtain ⟨r, s₂, hy, hpure⟩ := bind_ok.mp heq
  cases r with
  | some r => exact h r s₂ hy
  | none =>
      have hboth := pure_ok.mp hpure
      rw [hg.right] at hboth
      cases hboth

theorem factorTail_paren {f : Calc} {fuel : Nat}
    (h : peek w = ')'.toUInt8) :
    Spoiled (factorTail f (fuel + 1) (getchar w)) := by
  intro v s heq
  have hrun : factorTail f (fuel + 1) (getchar w) =
      .error (.exit (.error "bad factor_tail" (peek w))) := by
    show (if peek w = _ then _ else if peek w = _ then _ else
      if EndsTerm (peek w) then _ else _ : Calc) _ = _
    rw [h, if_neg (by decide), if_neg (by decide), if_neg (by decide), ← h]
    rfl
  rw [hrun] at heq
  cases heq

theorem termTail_paren {t : Calc} {fuel : Nat} (h : peek w = ')'.toUInt8) :
    Spoiled (termTail t (fuel + 1) (getchar w)) := by
  intro v s heq
  have hrun : termTail t (fuel + 1) (getchar w) =
      .error (.exit (.error "bad term_tail" (peek w))) := by
    show (if peek w = _ then _ else if peek w = _ then _ else
      if peek w = _ then _ else _ : Calc) _ = _
    rw [h, if_neg (by decide), if_neg (by decide), if_neg (by decide), ← h]
    rfl
  rw [hrun] at heq
  cases heq

/-- With enough fuel, no rational number comes of the sentence. -/
def Spoils (out : Outside) : (nt : Nt) → Sentence nt → Prop
  | .factor, s => ¬ s.Plain → ∀ w, Closed (peek w) →
      ∃ n, ∀ fuel ≥ n, Spoiled (factor out fuel (getchar (s.text ++ w)))
  | .factorTail, s => ∀ w, Closed (peek w) →
      (s.Plain → peek w = ')'.toUInt8) → ∃ n, ∀ m ≥ n, ∀ k ≥ n,
        Spoiled (factorTail (factor out m) k (getchar (s.text ++ w)))
  | .term, s => ∀ w, Closed (peek w) → (s.Plain → peek w = ')'.toUInt8) →
      ∃ n, ∀ fuel ≥ n,
        Spoiled (term (factor out fuel) fuel (getchar (s.text ++ w)))
  | .termTail, s => ∀ w, Closed (peek w) →
      (s.Plain → peek w = ')'.toUInt8) → ∃ n, ∀ m ≥ n, ∀ k ≥ n,
        Spoiled (termTail (term (factor out m) m) k (getchar (s.text ++ w)))
  | .expr, s => ∀ w, Closed (peek w) → (s.Plain → peek w = ')'.toUInt8) →
      ∃ n, ∀ fuel ≥ n, Spoiled (expr out fuel (getchar (s.text ++ w)))

/-- Either no number comes of the term, or it is plain and the tail behind it
begins with a token that may follow. -/
theorem term_or_tail {t : Sentence .term} {tail : Sentence .termTail}
    (h : t.Plain ∧ tail.Plain → peek w = ')'.toUInt8) :
    (t.Plain → peek (tail.text ++ w) = ')'.toUInt8) ∨
      t.Plain ∧ EndsTerm (peek (tail.text ++ w)) := by
  by_cases ht : t.Plain
  · rcases termTail_peek tail with ⟨o, text, heq⟩ | rfl
    · rw [heq]
      exact Or.inr ⟨ht, o.endsTerm⟩
    · exact Or.inl fun _ => h ⟨ht, trivial⟩
  · exact Or.inl fun h' => absurd h' ht

theorem spoils (hjunk : ∀ text, out.junk text = none) {nt : Nt}
    (e : Sentence nt) : Spoils out nt e := by
  induction e with
  | expr t tail iht ihtail =>
      intro w hw h
      show ∃ n, ∀ fuel ≥ n,
        Spoiled (expr out fuel (getchar ((t.text ++ tail.text) ++ w)))
      rw [List.append_assoc]
      rcases term_or_tail h with hbad | ⟨ht, hends⟩
      · obtain ⟨n, hn⟩ := iht _ (closed_termTail tail hw) hbad
        exact ⟨n, fun fuel hfuel => spoiled_left strict_add (hn fuel hfuel)⟩
      · obtain ⟨n, hn⟩ := plain_returns t ht _ hends
        obtain ⟨m, hm⟩ := ihtail w hw fun htail => h ⟨ht, htail⟩
        exact ⟨max n m, fun fuel hfuel => spoiled_right strict_add
          (hn fuel (by omega)) (hm fuel (by omega) fuel (by omega))⟩
  | addOp o t tail iht ihtail =>
      intro w hw h
      show ∃ n, ∀ m ≥ n, ∀ k ≥ n, Spoiled (termTail _ k
        (getchar (o.char :: ((t.text ++ tail.text) ++ w))))
      rw [List.append_assoc]
      rcases term_or_tail h with hbad | ⟨ht, hends⟩
      · obtain ⟨n, hn⟩ := iht _ (closed_termTail tail hw) hbad
        refine ⟨n + 1, fun i hi k hk => ?_⟩
        obtain ⟨k, rfl⟩ : ∃ k', k = k' + 1 := ⟨k - 1, by omega⟩
        rw [termTail_addOp]
        exact spoiled_left o.strict_join (hn i (by omega))
      · obtain ⟨n, hn⟩ := plain_returns t ht _ hends
        obtain ⟨m, hm⟩ := ihtail w hw fun htail => h ⟨ht, htail⟩
        refine ⟨max n m + 1, fun i hi k hk => ?_⟩
        obtain ⟨k, rfl⟩ : ∃ k', k = k' + 1 := ⟨k - 1, by omega⟩
        rw [termTail_addOp]
        exact spoiled_right o.strict_join (hn i (by omega))
          (hm i (by omega) k (by omega))
  | noTerm =>
      intro w _ h
      refine ⟨1, fun i hi k hk => ?_⟩
      obtain ⟨k, rfl⟩ : ∃ k', k = k' + 1 := ⟨k - 1, by omega⟩
      exact termTail_paren (h trivial)
  | term f tail ihf ihtail =>
      intro w hw h
      show ∃ n, ∀ fuel ≥ n, Spoiled (term (factor out fuel) fuel
        (getchar ((f.text ++ tail.text) ++ w)))
      rw [List.append_assoc]
      by_cases hf : f.Plain
      · obtain ⟨n, hn⟩ := plain_returns f hf _ (closed_factorTail tail hw)
        obtain ⟨m, hm⟩ := ihtail w hw fun htail => h ⟨hf, htail⟩
        exact ⟨max n m, fun fuel hfuel => spoiled_right strict_mul
          (hn fuel (by omega)) (hm fuel (by omega) fuel (by omega))⟩
      · obtain ⟨n, hn⟩ := ihf hf _ (closed_factorTail tail hw)
        exact ⟨n, fun fuel hfuel => spoiled_left strict_mul (hn fuel hfuel)⟩
  | mulOp o f tail ihf ihtail =>
      intro w hw h
      show ∃ n, ∀ m ≥ n, ∀ k ≥ n, Spoiled (factorTail _ k
        (getchar (o.char :: ((f.text ++ tail.text) ++ w))))
      rw [List.append_assoc]
      by_cases hf : f.Plain
      · obtain ⟨n, hn⟩ := plain_returns f hf _ (closed_factorTail tail hw)
        obtain ⟨m, hm⟩ := ihtail w hw fun htail => h ⟨hf, htail⟩
        refine ⟨max n m + 1, fun i hi k hk => ?_⟩
        obtain ⟨k, rfl⟩ : ∃ k', k = k' + 1 := ⟨k - 1, by omega⟩
        rw [factorTail_mulOp]
        exact spoiled_right o.strict_join (hn i (by omega))
          (hm i (by omega) k (by omega))
      · obtain ⟨n, hn⟩ := ihf hf _ (closed_factorTail tail hw)
        refine ⟨n + 1, fun i hi k hk => ?_⟩
        obtain ⟨k, rfl⟩ : ∃ k', k = k' + 1 := ⟨k - 1, by omega⟩
        rw [factorTail_mulOp]
        exact spoiled_left o.strict_join (hn i (by omega))
  | noFactor =>
      intro w _ h
      refine ⟨1, fun i hi k hk => ?_⟩
      obtain ⟨k, rfl⟩ : ∃ k', k = k' + 1 := ⟨k - 1, by omega⟩
      exact factorTail_paren (h trivial)
  | digits signs ds ne digit =>
      intro h w _
      refine ⟨1, fun fuel hfuel => ?_⟩
      obtain ⟨fuel, rfl⟩ : ∃ k, fuel = k + 1 := ⟨fuel - 1, by omega⟩
      match signs, h with
      | [], h => exact absurd (Nat.zero_le 1) h
      | [_], h => exact absurd (Nat.le_refl 1) h
      | o :: o' :: signs, _ =>
          intro v s heq
          have hrun : factor out (fuel + 1) (getchar (o.char :: o'.char ::
              ((signs.map AddOp.char ++ ds) ++ w))) = _ := signs_run o o' _
          rw [hjunk] at hrun
          cases hrun.symm.trans heq
  | paren e ih =>
      intro _ w _
      obtain ⟨n, hn⟩ := ih (')'.toUInt8 :: w)
        (show Closed ')'.toUInt8 from ⟨by decide, by decide⟩) fun _ => rfl
      refine ⟨n + 1, fun fuel hfuel => ?_⟩
      obtain ⟨fuel, rfl⟩ : ∃ k, fuel = k + 1 := ⟨fuel - 1, by omega⟩
      show Spoiled (factor out (fuel + 1)
        (getchar ('('.toUInt8 :: ((e.text ++ [')'.toUInt8]) ++ w))))
      rw [List.append_assoc, factor_paren]
      intro v s heq
      obtain ⟨value, s₁, hexpr, hrest⟩ := bind_ok.mp heq
      obtain ⟨_, s₂, -, hpure⟩ := bind_ok.mp hrest
      cases pure_ok.mp hpure
      exact hn fuel (by omega) v s₁ hexpr

/-- Nothing is known about the variables and about the other numbers. -/
def noOutside : Outside := ⟨fun _ => none, fun value text => (value, text)⟩

theorem not_evaluates {e : Sentence .expr} {v : ℚ} (h : ¬ e.Plain) :
    ¬ Evaluates e v := by
  intro hev
  have hspoils : Spoils noOutside .expr e := spoils (fun _ => rfl) e
  obtain ⟨n, hn⟩ := hspoils [END_TOKEN] ⟨by decide, by decide⟩
    fun h' => absurd h' h
  obtain ⟨m, hm⟩ := hev noOutside []
  have hrun := hm (max n m) (Nat.le_max_right n m)
  have hbad := hn (max n m) (Nat.le_max_left n m)
  rw [result] at hrun
  cases hexpr : expr noOutside (max n m)
      (getchar (e.text ++ [END_TOKEN])) with
  | error stopped =>
      rw [hexpr] at hrun
      cases hrun
  | ok r =>
      rw [hexpr] at hrun hbad
      obtain ⟨value, s⟩ := r
      cases hrun
      exact hbad v s rfl

/-- A sentence is accepted and evaluated just if it is plain. -/
theorem evaluates_iff {e : Sentence .expr} {v : ℚ}
    (hv : valueOf e = some v) : Evaluates e v ↔ e.Plain := by
  constructor
  · intro h
    by_contra hplain
    exact not_evaluates hplain h
  · intro h out rest
    have hreturns : Returns out .expr e := plain_returns e h
    have hrun := (hreturns (END_TOKEN :: rest) rfl).map (Except.map Prod.fst)
    exact hv ▸ hrun

/-- `1/2-3` -/
def oneHalfLessThree : Sentence .expr :=
  .expr (.term (.digits [] ['1'.toUInt8] (by decide) (by simp; decide))
      (.mulOp .over (.digits [] ['2'.toUInt8] (by decide) (by simp; decide))
        .noFactor))
    (.addOp .minus (.term (.digits [] ['3'.toUInt8] (by decide)
      (by simp; decide)) .noFactor) .noTerm)

theorem evaluates_one_half : Evaluates oneHalfLessThree (-5 / 2) := by
  have hvalue : valueOf oneHalfLessThree = some (-5 / 2) := by
    decide +kernel
  exact (evaluates_iff hvalue).mpr
    ⟨⟨Nat.zero_le 1, Nat.zero_le 1, trivial⟩, ⟨Nat.zero_le 1, trivial⟩, trivial⟩

/-- `(1)` -/
def oneInParens : Sentence .expr :=
  .expr (.term (.paren (.expr (.term (.digits [] ['1'.toUInt8] (by decide)
    (by simp; decide)) .noFactor) .noTerm)) .noFactor) .noTerm

/-- The sentence has the value 1; `factor_tail` finds the parenthesis. -/
theorem not_evaluates_parens : valueOf oneInParens = some 1 ∧
    result noOutside (oneInParens.text ++ [END_TOKEN]) 9 =
      .error (.exit (.error "bad factor_tail" ')'.toUInt8)) ∧
    ¬ Evaluates oneInParens 1 :=
  ⟨by decide +kernel, by rfl, not_evaluates fun h => h.1.1⟩

end LearningLinux.CalcLl1
