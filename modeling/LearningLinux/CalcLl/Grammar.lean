import LearningLinux.CalcLl.Reading

/-!
# The grammar in the header of `calc_ll`

`Derives` is the grammar, with the tree that a derivation stands for. Where an
input begins with an expression and no token continues it, `expr` returns its
value. Where it does not, some factor is missing, and `expr` should say so.

But a sign is taken for the beginning of a number, and whether `scanf` has
found one is not asked. A sign without digits is then a number of unknown
value. The input `+` has a result, and it may be any.
-/

namespace LearningLinux.CalcLl

open LearningLinux.Lib

/-! ## Sentences -/

inductive Derives : Nt → Tree → List UInt8 → Prop where
  | digits {u : List UInt8} {v : Int} : Numeral u v →
      Derives .factor (.number v) u
  | paren {t : Tree} {w : List UInt8} : Derives .expr t w →
      Derives .factor t ('('.toUInt8 :: (w ++ [')'.toUInt8]))
  | operand {l : Level} {t : Tree} {w : List UInt8} : Derives l.operand t w →
      Derives (.chain l) t w
  | operator {l : Level} {o : Op} {t r : Tree} {w w' : List UInt8} :
      Derives (.chain l) t w → l.Has o → Derives l.operand r w' →
      Derives (.chain l) (.bin o t r) (w ++ o.char :: w')

/-- The last number does not go on behind the text. -/
def Apart (w rest : List UInt8) : Prop :=
  ∀ u d, w = u ++ [d] → isdigit d = true → isdigit (peek rest) = false

/-- The input begins with an expression, and no token continues it. -/
def Begins (input : List UInt8) (t : Tree) : Prop :=
  ∃ w rest, input = w ++ rest ∧ Derives .expr t w ∧ Apart w rest ∧
    ∀ l : Level, ¬ l.Next (peek rest)

/-- The program evaluates its grammar and rejects everything else. -/
structure Meets (input : List UInt8) : Prop where
  value : ∀ t v, Begins input t → (∀ junk, t.eval junk = .ok v) →
    ∀ junk, Settles (result junk input) (.ok v)
  rejects : (¬ ∃ t, Begins input t) →
    ∀ junk, ∃ m, Settles (result junk input) (.error (.exit m))
  independent : ∀ junk junk' r, Settles (result junk input) r →
    Settles (result junk' input) r

/-- Either the input begins with an expression, or it is rejected even with a
sign for a number, whatever the number. -/
def Decided (input : List UInt8) : Prop :=
  (∃ t, Begins input t) ∨ ∃ t rest, Reads .expr input t rest ∧
    ∀ junk, ∃ m, t.eval junk = .error (.exit m)

variable {junk : List UInt8 → Int32} {t r : Tree} {w rest input : List UInt8}
  {l : Level} {o : Op} {nt : Nt} {n : Nat}

theorem Derives.proper (h : Derives nt t w) : t.Proper := by
  induction h with
  | digits _ => exact trivial
  | paren _ ih => exact ih
  | operand _ ih => exact ih
  | operator _ _ _ ih ih' => exact ⟨ih, ih'⟩

/-! ## Sentences are read as such -/

theorem Op.char_plain (o : Op) : isdigit o.char = false := by
  cases o <;> decide

theorem Level.not_mul (h : Level.add.Has o) : ¬ Level.mul.Next o.char := by
  rcases h with rfl | rfl <;> decide

/-- What is derived is read, in front of what does not continue it. -/
def Read (t : Tree) (w rest : List UInt8) : Nt → Prop
  | .factor => Reads .factor (w ++ rest) t rest
  | .chain l => (l = .add → ¬ Level.mul.Next (peek rest)) →
      ∀ t' rest', Reads (.tail l t) rest t' rest' →
        Reads (.chain l) (w ++ rest) t' rest'
  | .tail _ _ => True

theorem Read.operand (h : Read t w rest l.operand)
    (hmul : l = .add → ¬ Level.mul.Next (peek rest)) :
    Reads l.operand (w ++ rest) t rest := by
  cases l with
  | mul => exact h
  | add => exact h nofun t rest (.ends (hmul rfl))

theorem Derives.read (h : Derives nt t w) :
    ∀ rest, Apart w rest → Read t w rest nt := by
  induction h with
  | digits hu =>
      intro rest hapart
      obtain ⟨u, d, rfl, hd⟩ := hu.last
      exact Reads.number hu (hapart u d rfl hd)
  | @paren t w h ih =>
      intro rest _
      have hdigit : isdigit ')'.toUInt8 = false := by decide
      have hnext (l : Level) : ¬ l.Next ')'.toUInt8 := by
        cases l <;> decide
      have hexpr := ih (')'.toUInt8 :: rest) (fun _ _ _ _ => hdigit)
        (fun _ => hnext .mul) t (')'.toUInt8 :: rest) (.ends (hnext .add))
      have hread := Reads.paren hexpr h.proper.message
      show Reads .factor (('('.toUInt8 :: (w ++ [')'.toUInt8])) ++ rest) t rest
      rw [List.cons_append, List.append_assoc]
      exact hread
  | operand _ ih =>
      intro rest hapart hmul t' rest' htail
      exact .chain ((ih rest hapart).operand hmul) htail
  | @operator l o t r w w' h hop _ ih ih' =>
      intro rest hapart hmul t' rest' htail
      have hoperand := (ih' rest fun u d heq hd =>
        hapart (w ++ o.char :: u) d (by simp [heq]) hd).operand hmul
      have hmore := Reads.more hop h.proper.message hoperand htail
      have hread := ih (o.char :: (w' ++ rest)) (fun _ _ _ _ => o.char_plain)
        (fun hl => by subst hl; exact Level.not_mul hop) t' rest' hmore
      rw [List.append_assoc, List.cons_append]
      exact hread

theorem Begins.reads (h : Begins input t) :
    ∃ rest, Reads .expr input t rest := by
  obtain ⟨w, rest, rfl, hw, hapart, hnext⟩ := h
  exact ⟨rest, hw.read rest hapart (fun _ => hnext .mul) t rest
    (.ends (hnext .add))⟩

/-! ## Every text is read somehow -/

def TotalTo (nt : Nt) (n : Nat) : Prop :=
  ∀ w : List UInt8, w.length ≤ n → ∃ t rest, Reads nt w t rest ∧
    (t.message = none → rest.length < w.length)

theorem cons_of_peek {c : UInt8} (h : peek w = c) (hc : c ≠ 0xFF) :
    ∃ w', w = c :: w' := by
  cases w with
  | nil => exact absurd h.symm hc
  | cons c' w => exact ⟨w, congrArg (· :: w) h⟩

theorem Level.Next.op (h : l.Next (peek w)) :
    ∃ o w', l.Has o ∧ w = o.char :: w' := by
  rcases h with h | h
  · obtain ⟨w', hw⟩ := cons_of_peek h (by cases l <;> decide)
    exact ⟨_, w', .inl rfl, hw⟩
  · obtain ⟨w', hw⟩ := cons_of_peek h (by cases l <;> decide)
    exact ⟨_, w', .inr rfl, hw⟩

theorem tail_total (h : TotalTo l.operand n) : ∀ k, ∀ w : List UInt8,
    w.length ≤ k → w.length ≤ n → ∀ t, ∃ t' rest, Reads (.tail l t) w t' rest ∧
      (t'.message = none → rest.length ≤ w.length) := by
  intro k
  induction k with
  | zero =>
      intro w hk _ t
      cases List.length_eq_zero_iff.mp (Nat.le_zero.mp hk)
      exact ⟨t, [], .ends (by cases l <;> decide), fun _ => Nat.le_refl _⟩
  | succ k ih =>
      intro w hk hn t
      by_cases ht : t.message = none
      · by_cases hnext : l.Next (peek w)
        · obtain ⟨o, w', hop, rfl⟩ := hnext.op
          rw [List.length_cons] at hk hn
          obtain ⟨r, rest, hr, hlen⟩ := h w' (by omega)
          by_cases hmsg : (Tree.bin o t r).message = none
          · have hr_none : r.message = none := by
              rw [Tree.message, ht] at hmsg
              exact hmsg
            have hlt := hlen hr_none
            obtain ⟨t', rest', htail, hle⟩ := ih rest (by omega) (by omega)
              (.bin o t r)
            refine ⟨t', rest', .more hop ht hr htail, fun h' => ?_⟩
            have := hle h'
            rw [List.length_cons]
            omega
          · exact ⟨_, rest, .more hop ht hr (.stuck hmsg),
              fun h' => absurd h' hmsg⟩
        · exact ⟨t, w, .ends hnext, fun _ => Nat.le_refl _⟩
      · exact ⟨t, w, .stuck ht, fun _ => Nat.le_refl _⟩

theorem chain_total (h : TotalTo l.operand n) : TotalTo (.chain l) n := by
  intro w hn
  obtain ⟨t, rest, ht, hlen⟩ := h w hn
  by_cases hmsg : t.message = none
  · have hlt := hlen hmsg
    obtain ⟨t', rest', htail, hle⟩ :=
      tail_total h rest.length rest (Nat.le_refl _) (by omega) t
    exact ⟨t', rest', .chain ht htail, fun h' => by have := hle h'; omega⟩
  · exact ⟨t, rest, .chain ht (.stuck hmsg), fun h' => absurd h' hmsg⟩

theorem factor_total (n : Nat) : TotalTo .factor n := by
  induction n with
  | zero =>
      intro w hw
      cases List.length_eq_zero_iff.mp (Nat.le_zero.mp hw)
      exact ⟨.bad, [], .bad (by decide) (by decide), nofun⟩
  | succ n ih =>
      intro w hw
      by_cases hparen : peek w = '('.toUInt8
      · obtain ⟨w, rfl⟩ := cons_of_peek hparen (by decide)
        rw [List.length_cons] at hw ⊢
        have hexpr : TotalTo .expr n :=
          chain_total (l := .add) (chain_total (l := .mul) ih)
        obtain ⟨t, rest, ht, hlen⟩ := hexpr w (by omega)
        by_cases hmsg : t.message = none
        · have hlt := hlen hmsg
          by_cases hclose : peek rest = ')'.toUInt8
          · obtain ⟨rest, rfl⟩ := cons_of_peek hclose (by decide)
            rw [List.length_cons] at hlt
            exact ⟨t, rest, .paren ht hmsg, fun _ => by omega⟩
          · exact ⟨_, rest, .unclosed ht hmsg hclose, fun _ => by omega⟩
        · exact ⟨t, rest, .inner ht hmsg, fun h' => absurd h' hmsg⟩
      · by_cases hfirst : (isdigit (peek w) || isSign (peek w)) = true
        · cases w with
          | nil => exact absurd hfirst (by decide)
          | cons c w =>
              rcases numeral_or_bare hfirst with
                ⟨u, v, rest, heq, hu, hrest⟩ | ⟨hsign, hrest⟩
              · have hw' : c :: w = u ++ rest := heq
                rw [hw']
                refine ⟨_, rest, .number hu hrest, fun _ => ?_⟩
                have hpos := List.length_pos_iff.mpr hu.ne_nil
                rw [List.length_append]
                omega
              · exact ⟨_, w, .bare hsign hrest, fun _ => Nat.lt_succ_self _⟩
        · exact ⟨.bad, w, .bad hparen (Bool.eq_false_iff.mpr hfirst), nofun⟩

theorem exists_reads (input : List UInt8) :
    ∃ t rest, Reads .expr input t rest := by
  have h : TotalTo .expr input.length :=
    chain_total (l := .add) (chain_total (l := .mul) (factor_total _))
  obtain ⟨t, rest, ht, -⟩ := h input (Nat.le_refl _)
  exact ⟨t, rest, ht⟩

/-! ## Results -/

theorem Reads.result (h : Reads .expr input t rest)
    (junk : List UInt8 → Int32) :
    Settles (CalcLl.result junk input) (t.eval junk) := by
  have hrun := (reads_run junk h).map (Except.map Prod.fst)
  rw [outcome] at hrun
  cases ht : t.eval junk with
  | ok v => rw [ht] at hrun; exact hrun
  | error e => rw [ht] at hrun; exact hrun

theorem Begins.result (h : Begins input t) (junk junk' : List UInt8 → Int32) :
    Settles (CalcLl.result junk input) (t.eval junk') := by
  obtain ⟨rest, hreads⟩ := h.reads
  obtain ⟨w, _, _, hw, _⟩ := h
  have hsame : t.eval junk' = t.eval junk := hw.proper.eval_eq
  rw [hsame]
  exact hreads.result junk

/-- The claim of the header is met for just the inputs that can be decided
without the value of a sign. -/
theorem meets_iff (input : List UInt8) : Meets input ↔ Decided input := by
  constructor
  · intro h
    by_cases hbegins : ∃ t, Begins input t
    · exact .inl hbegins
    · obtain ⟨t, rest, ht⟩ := exists_reads input
      refine .inr ⟨t, rest, ht, fun junk => ?_⟩
      obtain ⟨m, hm⟩ := h.rejects hbegins junk
      exact ⟨m, (ht.result junk).unique hm⟩
  · rintro (⟨t, hbegins⟩ | ⟨t, rest, ht, hexit⟩)
    · refine ⟨fun t' v h hv junk => ?_, fun h => absurd ⟨t, hbegins⟩ h,
        fun junk junk' r hr => ?_⟩
      · rw [← hv junk]
        exact h.result junk junk
      · rw [← (hbegins.result junk junk).unique hr]
        exact hbegins.result junk' junk
    · refine ⟨fun t' v h hv junk => ?_, fun _ junk => ?_,
        fun junk junk' r hr => ?_⟩
      · obtain ⟨m, hm⟩ := hexit junk
        have hboth := (h.result junk junk).unique (ht.result junk)
        rw [hv junk, hm] at hboth
        cases hboth
      · obtain ⟨m, hm⟩ := hexit junk
        exact ⟨m, hm ▸ ht.result junk⟩
      · obtain ⟨m, hm⟩ := hexit junk
        obtain ⟨m', hm'⟩ := hexit junk'
        have hsame := (message_of_exit hm).symm.trans (message_of_exit hm')
        have hr' := (ht.result junk).unique hr
        rw [hm, Option.some.inj hsame, ← hm'] at hr'
        rw [← hr']
        exact ht.result junk'

/-- A plus sign on a line of its own. -/
def plusLine : List UInt8 := ['+'.toUInt8, 10]

/-- The result is whatever was in `value`. -/
theorem not_meets_plus : ¬ Meets plusLine := by
  intro h
  have hreads : Reads .expr plusLine (.bare [10]) [10] :=
    .chain (l := .add) (.chain (l := .mul) (.bare (by decide) (by decide))
      (.ends (by decide))) (.ends (by decide))
  have hzero := hreads.result fun _ => 0
  have hone := hreads.result fun _ => 1
  have hboth := (h.independent _ _ _ hzero).unique hone
  exact absurd hboth (by decide)

end LearningLinux.CalcLl
