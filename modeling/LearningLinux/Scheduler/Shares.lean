import Mathlib.Algebra.BigOperators.Fin
import LearningLinux.Scheduler.Model

/-!
# Rounds

What the clock interrupts do to a table in which the counters start at the
priorities: one process after the other is served, the one of the greatest
priority first, until its counter is used up; when all are used up, they are
set back and it begins again. Processes without a positive priority are never
served.
-/

namespace LearningLinux.Scheduler

open LearningLinux.Lib

variable {n : Nat}

/-! ## The order of service -/

/-- Greater priorities come first, and among equals the smaller index. -/
def ServedBefore (prio : Fin n → Int) (p q : Fin n) : Prop :=
  prio q < prio p ∨ prio q = prio p ∧ p < q

/-- `order` lists the processes that are served. -/
structure IsOrder (prio : Fin n → Int) (order : List (Fin n)) : Prop where
  pairwise : order.Pairwise (ServedBefore prio)
  mem : ∀ p, p ∈ order ↔ 0 < prio p

/-- A round: each process has as many turns as its priority says, one after
the other. -/
def turns (prio : Fin n → Int) (order : List (Fin n)) : List (Fin n) :=
  order.flatMap fun p => List.replicate (prio p).toNat p

variable {prio : Fin n → Int} {order served rest : List (Fin n)} {c : Fin n}

theorem ServedBefore.le {p q : Fin n} (h : ServedBefore prio p q) :
    prio q ≤ prio p ∧ (q < p → prio q < prio p) := by
  rcases h with h | ⟨h, hlt⟩
  · exact ⟨h.le, fun _ => h⟩
  · exact ⟨h.le, fun hqp => absurd hlt (not_lt.mpr hqp.le)⟩

theorem ServedBefore.ne {p q : Fin n} (h : ServedBefore prio p q) : p ≠ q := by
  rintro rfl
  rcases h with h | ⟨-, h⟩
  · exact lt_irrefl _ h
  · exact lt_irrefl _ h

theorem IsOrder.nodup (h : IsOrder prio order) : order.Nodup :=
  h.pairwise.imp fun h => h.ne

/-- Of the processes that were not served yet, the next in order has the
greatest counter, and is the first to have it. -/
theorem IsOrder.firstGreatest {f : Fin n → Int}
    (h : IsOrder prio (served ++ c :: rest)) (hserved : ∀ p ∈ served, f p ≤ 0)
    (hrest : ∀ p ∈ c :: rest, f p = prio p)
    (hout : ∀ p, p ∉ served ++ c :: rest → f p ≤ 0) :
    FirstGreatest f c ∧ 0 < f c := by
  have hc := hrest c List.mem_cons_self
  have hpos : 0 < prio c :=
    (h.mem c).mp (List.mem_append_right _ List.mem_cons_self)
  have hsmall {p : Fin n} (hp : f p ≤ 0) :
      f p ≤ f c ∧ (p < c → f p < f c) := by
    rw [hc]
    exact ⟨by omega, fun _ => by omega⟩
  refine ⟨?_, by rw [hc]; exact hpos⟩
  intro p
  by_cases hp : p ∈ served ++ c :: rest
  · rcases List.mem_append.mp hp with hp | hp
    · exact hsmall (hserved p hp)
    · rcases List.mem_cons.mp hp with rfl | hp
      · exact ⟨le_refl _, fun hlt => absurd hlt (lt_irrefl _)⟩
      · have hbefore := List.rel_of_pairwise_cons
          (List.pairwise_append.mp h.pairwise).2.1 hp
        rw [hc, hrest p (List.mem_cons_of_mem _ hp)]
        exact hbefore.le
  · exact hsmall (hout p hp)

/-! ## Where a round is -/

/-- `c` is being served and has `t` turns left, those before it in the order
have none, and those behind it have all. -/
structure Serving (prio : Fin n → Int) (k : Kernel n)
    (served : List (Fin n)) (c : Fin n) (rest : List (Fin n)) (t : Int) :
    Prop where
  order : IsOrder prio (served ++ c :: rest)
  prios : ∀ p, k.priorityOf p = prio p
  ready : k.p_proc_ready = c
  left_pos : 0 < t
  left_le : t ≤ prio c
  ticks : k.ticksOf c = t
  used : ∀ p ∈ served, k.ticksOf p = 0
  full : ∀ p ∈ rest, k.ticksOf p = prio p
  out : ∀ p, p ∉ served ++ c :: rest → k.ticksOf p ≤ 0

variable {k : Kernel n} {t : Int}

theorem charge_table : k.charge.proc_table k.p_proc_ready =
    ⟨k.ticksOf k.p_proc_ready - 1, k.priorityOf k.p_proc_ready⟩ :=
  Function.update_self ..

theorem charge_ready : k.charge.ticksOf k.p_proc_ready =
    k.ticksOf k.p_proc_ready - 1 := by
  rw [Kernel.ticksOf, charge_table]

theorem charge_other {p : Fin n} (h : p ≠ k.p_proc_ready) :
    k.charge.ticksOf p = k.ticksOf p :=
  congrArg Process.ticks (Function.update_of_ne h ..)

theorem charge_priorityOf (p : Fin n) :
    k.charge.priorityOf p = k.priorityOf p := by
  by_cases h : p = k.p_proc_ready
  · subst h
    rw [Kernel.priorityOf, charge_table]
  · exact congrArg Process.priority (Function.update_of_ne h ..)

/-- The process in service is in no other part of the order. -/
theorem Serving.ne (h : Serving prio k served c rest t) {p : Fin n}
    (hp : p ∈ served ∨ p ∈ rest ∨ p ∉ served ++ c :: rest) :
    p ≠ k.p_proc_ready := by
  rw [h.ready]
  have hnodup := h.order.nodup
  rintro rfl
  rcases hp with hp | hp | hp
  · exact (List.nodup_append.mp hnodup).2.2 p hp p List.mem_cons_self rfl
  · exact (List.nodup_cons.mp (List.nodup_append.mp hnodup).2.1).1 hp
  · exact hp (List.mem_append_right _ List.mem_cons_self)

/-- The counters after the interrupt has charged the process in service. -/
theorem Serving.charged (h : Serving prio k served c rest t) :
    k.charge.p_proc_ready = c ∧ k.charge.ticksOf c = t - 1 ∧
      (∀ p ∈ served, k.charge.ticksOf p = 0) ∧
      (∀ p ∈ rest, k.charge.ticksOf p = prio p) ∧
      ∀ p, p ∉ served ++ c :: rest → k.charge.ticksOf p ≤ 0 := by
  refine ⟨h.ready, ?_, ?_, ?_, ?_⟩
  · rw [← h.ready, charge_ready, h.ready, h.ticks]
  · intro p hp
    rw [charge_other (h.ne (Or.inl hp)), h.used p hp]
  · intro p hp
    rw [charge_other (h.ne (Or.inr (Or.inl hp))), h.full p hp]
  · intro p hp
    rw [charge_other (h.ne (Or.inr (Or.inr hp)))]
    exact h.out p hp

/-- What an interrupt does: the process goes on, the next one follows, or the
round is over. -/
inductive Next (prio : Fin n → Int) (k k' : Kernel n) (served : List (Fin n))
    (c : Fin n) : List (Fin n) → Int → Prop
  | stay (rest : List (Fin n)) (t : Int) (ht : 1 < t)
      (h : Serving prio k' served c rest (t - 1))
      (hrefills : k'.refills = k.refills) : Next prio k k' served c rest t
  | next (d : Fin n) (rest : List (Fin n))
      (h : Serving prio k' (served ++ [c]) d rest (prio d))
      (hrefills : k'.refills = k.refills) :
      Next prio k k' served c (d :: rest) 1
  | wrap (o : Fin n) (os : List (Fin n)) (horder : served ++ [c] = o :: os)
      (h : Serving prio k' [] o os (prio o))
      (hrefills : k'.refills = k.refills + 1) : Next prio k k' served c [] 1

theorem Serving.tick (h : Serving prio k served c rest t) :
    ∃ k', clockHandler k 0 = some k' ∧ Next prio k k' served c rest t := by
  obtain ⟨hready, hticks, hused, hfull, hout⟩ := h.charged
  have hprios (p : Fin n) : k.charge.priorityOf p = prio p :=
    (charge_priorityOf p).trans (h.prios p)
  have hleft := h.left_pos
  have hhandler : clockHandler k 0 =
      if k.charge.ticksOf c > 0 then some k.charge else schedule k.charge := by
    rw [← hready]
    rfl
  rw [hhandler]
  by_cases hgo : k.charge.ticksOf c > 0
  · rw [if_pos hgo]
    rw [hticks] at hgo
    have hle := h.left_le
    exact ⟨_, rfl, Next.stay rest t (by omega) ⟨h.order, hprios, hready, hgo,
      by omega, hticks, hused, hfull, hout⟩ rfl⟩
  · rw [if_neg hgo]
    have hone : t = 1 := by omega
    subst hone
    have hserved : ∀ p ∈ served ++ [c], k.charge.ticksOf p = 0 := by
      intro p hp
      rcases List.mem_append.mp hp with hp | hp
      · exact hused p hp
      · rw [List.mem_singleton.mp hp, hticks]
        rfl
    cases rest with
    | cons d rest =>
        have hsplit : served ++ c :: d :: rest =
            (served ++ [c]) ++ d :: rest := by simp
        have horder := h.order
        rw [hsplit] at horder hout
        obtain ⟨hfirst, hpos⟩ := horder.firstGreatest
          (fun p hp => (hserved p hp).le) hfull hout
        rw [schedule_pick hfirst hpos]
        have hd := hfull d List.mem_cons_self
        exact ⟨_, rfl, Next.next d rest ⟨horder, hprios, rfl, by omega, le_refl _, hd,
          hserved, fun p hp => hfull p (List.mem_cons_of_mem _ hp), hout⟩ rfl⟩
    | nil =>
        obtain ⟨o, os, hsplit⟩ : ∃ o os, served ++ [c] = o :: os := by
          cases served with
          | nil => exact ⟨c, [], rfl⟩
          | cons o os => exact ⟨o, os ++ [c], rfl⟩
        have horder := h.order
        have hzero (p : Fin n) : k.charge.ticksOf p ≤ 0 := by
          by_cases hp : p ∈ served ++ [c]
          · exact (hserved p hp).le
          · exact hout p hp
        rw [hsplit] at horder hout
        have hnone (p : Fin n) (hp : p ∉ o :: os) :
            k.charge.priorityOf p ≤ 0 := by
          rw [hprios p]
          exact not_lt.mp (mt (horder.mem p).mpr hp)
        obtain ⟨hfirst, hpos⟩ := IsOrder.firstGreatest (f := k.charge.priorityOf)
          (show IsOrder prio ([] ++ o :: os) from horder) nofun
          (fun p _ => hprios p) hnone
        rw [schedule_refill hzero hfirst hpos]
        rw [hprios o] at hpos
        exact ⟨_, rfl, Next.wrap o os hsplit ⟨horder, hprios, rfl, hpos, le_refl _,
          hprios o, nofun, fun p _ => hprios p, hnone⟩ rfl⟩

/-! ## Runs -/

theorem turns_length_append (a b : List (Fin n)) :
    (turns prio (a ++ b)).length =
      (turns prio a).length + (turns prio b).length := by
  rw [turns, List.flatMap_append, List.length_append]
  rfl

theorem turns_length_cons (p : Fin n) (l : List (Fin n)) :
    (turns prio (p :: l)).length =
      (prio p).toNat + (turns prio l).length := by
  rw [turns, List.flatMap_cons, List.length_append, List.length_replicate]
  rfl

/-- The kernel stands at turn `pos` of a round. -/
structure At (prio : Fin n → Int) (order : List (Fin n)) (k : Kernel n)
    (pos : Nat) : Prop where
  serving : ∃ served c rest t, order = served ++ c :: rest ∧
    Serving prio k served c rest t ∧
    pos = (turns prio served).length + (prio c - t).toNat

variable {pos : Nat}

theorem At.tick (h : At prio order k pos) :
    ∃ k', clockHandler k 0 = some k' ∧
      (pos + 1 < (turns prio order).length ∧ At prio order k' (pos + 1) ∧
          k'.refills = k.refills ∨
        pos + 1 = (turns prio order).length ∧ At prio order k' 0 ∧
          k'.refills = k.refills + 1) := by
  obtain ⟨served, c, rest, t, rfl, hserving, rfl⟩ := h.serving
  obtain ⟨k', hk', hnext⟩ := hserving.tick
  refine ⟨k', hk', ?_⟩
  have hpos := hserving.left_pos
  have hle := hserving.left_le
  rw [turns_length_append, turns_length_cons]
  cases hnext with
  | stay rest t ht hs hrefills =>
      refine Or.inl ⟨by omega, ⟨served, c, rest, t - 1, rfl, hs, ?_⟩,
        hrefills⟩
      omega
  | next d rest hs hrefills =>
      have hd := hs.left_pos
      rw [turns_length_cons]
      refine Or.inl ⟨by omega, ⟨served ++ [c], d, rest, prio d, by simp, hs,
        ?_⟩, hrefills⟩
      rw [turns_length_append, turns_length_cons]
      have hnil : (turns prio ([] : List (Fin n))).length = 0 := rfl
      omega
  | wrap o os horder hs hrefills =>
      have hnil : (turns prio ([] : List (Fin n))).length = 0 := rfl
      refine Or.inr ⟨by omega, ⟨[], o, os, prio o, horder, hs, ?_⟩, hrefills⟩
      omega

theorem At.lt (h : At prio order k pos) : pos < (turns prio order).length := by
  obtain ⟨served, c, rest, t, rfl, hserving, rfl⟩ := h.serving
  have hpos := hserving.left_pos
  have hle := hserving.left_le
  rw [turns_length_append, turns_length_cons]
  omega

/-- The position goes round with the interrupts, and a refill ends each
round. -/
theorem At.run (arrivals : List Int) (hzero : ∀ r ∈ arrivals, r = 0)
    (h : At prio order k pos) :
    ∃ k', exec clockHandler k arrivals = some k' ∧
      At prio order k'
        ((pos + arrivals.length) % (turns prio order).length) ∧
      k'.refills = k.refills +
        (pos + arrivals.length) / (turns prio order).length := by
  induction arrivals generalizing k pos with
  | nil =>
      refine ⟨k, rfl, ?_, ?_⟩
      · rw [List.length_nil, Nat.add_zero, Nat.mod_eq_of_lt h.lt]
        exact h
      · rw [List.length_nil, Nat.add_zero, Nat.div_eq_of_lt h.lt, Nat.add_zero]
  | cons r arrivals ih =>
      obtain rfl := hzero r List.mem_cons_self
      have hrest : ∀ r ∈ arrivals, r = 0 :=
        fun r hr => hzero r (List.mem_cons_of_mem _ hr)
      have hlt := h.lt
      obtain ⟨k₁, hk₁, hnext⟩ := h.tick
      rcases hnext with ⟨-, hat, hrefills⟩ | ⟨hend, hat, hrefills⟩
      · obtain ⟨k', hk', hat', hrefills'⟩ := ih hrest hat
        have hsum : pos + (0 :: arrivals : List Int).length =
            pos + 1 + arrivals.length := by
          rw [List.length_cons]
          omega
        rw [hsum, ← hrefills]
        exact ⟨k', exec_cons.mpr ⟨k₁, hk₁, hk'⟩, hat', hrefills'⟩
      · obtain ⟨k', hk', hat', hrefills'⟩ := ih hrest hat
        have hsum : pos + (0 :: arrivals : List Int).length =
            arrivals.length + (turns prio order).length := by
          rw [List.length_cons]
          omega
        rw [hsum, Nat.add_mod_right, Nat.add_div_right _ (by omega)]
        rw [Nat.zero_add] at hat' hrefills'
        refine ⟨k', exec_cons.mpr ⟨k₁, hk₁, hk'⟩, hat', ?_⟩
        rw [hrefills', hrefills]
        omega

/-! ## What is seen of a round -/

theorem At.turn (h : At prio order k pos) :
    (turns prio order)[pos]? = some k.p_proc_ready := by
  obtain ⟨served, c, rest, t, rfl, hserving, rfl⟩ := h.serving
  have hpos := hserving.left_pos
  have hle := hserving.left_le
  have hturns : turns prio (served ++ c :: rest) =
      turns prio served ++
        (List.replicate (prio c).toNat c ++ turns prio rest) := by
    rw [turns, List.flatMap_append, List.flatMap_cons]
    rfl
  rw [hturns, List.getElem?_append_right (Nat.le_add_right _ _),
    Nat.add_sub_cancel_left, List.getElem?_append_left (by
      rw [List.length_replicate]
      omega), List.getElem?_replicate_of_lt (by omega), hserving.ready]

/-- The counters are full at the beginning of a round, and only there. -/
theorem At.full_iff (h : At prio order k pos) (hall : ∀ p, p ∈ order) :
    (∀ p, k.ticksOf p = prio p) ↔ pos = 0 := by
  obtain ⟨served, c, rest, t, rfl, hserving, rfl⟩ := h.serving
  have hpos := hserving.left_pos
  have hle := hserving.left_le
  constructor
  · intro hfull
    have hnone : served = [] := by
      rw [List.eq_nil_iff_forall_not_mem]
      intro p hp
      have hprio : 0 < prio p :=
        (hserving.order.mem p).mp (List.mem_append_left _ hp)
      rw [← hfull p, hserving.used p hp] at hprio
      exact lt_irrefl _ hprio
    have hc := (hserving.ticks).symm.trans (hfull c)
    rw [hnone, hc]
    show 0 + (prio c - prio c).toNat = 0
    omega
  · intro hzero p
    have hnone : served = [] := by
      cases served with
      | nil => rfl
      | cons q served =>
          have hq : 0 < prio q := (hserving.order.mem q).mp
            (List.mem_append_left _ List.mem_cons_self)
          rw [turns_length_cons] at hzero
          omega
    subst hnone
    rcases List.mem_cons.mp (hall p) with rfl | hp
    · rw [hserving.ticks]
      omega
    · exact hserving.full p hp

/-! ## The order exists -/

/-- The processes with a positive priority, in the order in which they are
served. -/
def serviceOrder (prio : Fin n → Int) : List (Fin n) :=
  ((List.finRange n).filter fun p => 0 < prio p).insertionSort
    fun p q => prio q < prio p ∨ prio q = prio p ∧ p ≤ q

theorem serviceOrder_isOrder (prio : Fin n → Int) :
    IsOrder prio (serviceOrder prio) := by
  have : Std.Total (fun p q => prio q < prio p ∨ prio q = prio p ∧ p ≤ q) :=
    ⟨fun p q => by
      rcases lt_trichotomy (prio p) (prio q) with h | h | h
      · exact Or.inr (Or.inl h)
      · rcases le_total p q with hpq | hpq
        · exact Or.inl (Or.inr ⟨h.symm, hpq⟩)
        · exact Or.inr (Or.inr ⟨h, hpq⟩)
      · exact Or.inl (Or.inl h)⟩
  have : IsTrans (Fin n)
      (fun p q => prio q < prio p ∨ prio q = prio p ∧ p ≤ q) :=
    ⟨fun p q r hpq hqr => by
      rcases hpq with hpq | ⟨hpq, hle⟩
      · rcases hqr with hqr | ⟨hqr, -⟩
        · exact Or.inl (hqr.trans hpq)
        · exact Or.inl (hqr ▸ hpq)
      · rcases hqr with hqr | ⟨hqr, hle'⟩
        · exact Or.inl (hpq ▸ hqr)
        · exact Or.inr ⟨hqr.trans hpq, hle.trans hle'⟩⟩
  have hnodup : (serviceOrder prio).Nodup :=
    (List.perm_insertionSort _ _).nodup_iff.mpr
      ((List.nodup_finRange n).filter _)
  refine ⟨?_, ?_⟩
  · refine (List.pairwise_insertionSort _ _).imp₂ ?_ hnodup
    rintro p q (h | ⟨h, hle⟩) hne
    · exact Or.inl h
    · exact Or.inr ⟨h, lt_of_le_of_ne hle hne⟩
  · intro p
    rw [serviceOrder, List.mem_insertionSort]
    simp

/-- A kernel whose counters are at the priorities, and whose process is the
first of the greatest priority. -/
structure Starts (prio : Fin n → Int) (k : Kernel n) : Prop where
  prios : ∀ p, k.priorityOf p = prio p
  ticks : ∀ p, k.ticksOf p = prio p
  ready : FirstGreatest prio k.p_proc_ready
  pos : 0 < prio k.p_proc_ready

theorem Starts.at (h : Starts prio k) (horder : IsOrder prio order) :
    At prio order k 0 := by
  have hmem := (horder.mem k.p_proc_ready).mpr h.pos
  cases order with
  | nil => cases hmem
  | cons o os =>
      have hnone (p : Fin n) (hp : p ∉ o :: os) : prio p ≤ 0 :=
        not_lt.mp (mt (horder.mem p).mpr hp)
      obtain ⟨hfirst, hpos⟩ := IsOrder.firstGreatest
        (show IsOrder prio ([] ++ o :: os) from horder) nofun
        (fun _ _ => rfl) hnone
      have heq := h.ready.unique hfirst
      refine ⟨[], o, os, prio o, rfl, ⟨horder, h.prios, heq, hpos, le_refl _,
        h.ticks o, nofun, fun p _ => h.ticks p, ?_⟩, ?_⟩
      · intro p hp
        rw [h.ticks p]
        exact hnone p hp
      · show 0 = 0 + (prio o - prio o).toNat
        omega

/-! ## The main result -/

/-- The sum of all priorities. -/
def roundLength (prio : Fin n → Int) : Nat := ∑ p, (prio p).toNat

theorem turns_length (prio : Fin n → Int) (h : order.Perm (List.finRange n)) :
    (turns prio order).length = roundLength prio := by
  have hsum : (turns prio order).length =
      (order.map fun p => (prio p).toNat).sum := by
    rw [turns, List.length_flatMap]
    simp only [List.length_replicate]
  rw [hsum, (h.map _).sum_eq, roundLength, Fin.sum_univ_def]

/-- The kernel after `m` interrupts, in terms of rounds. -/
structure InRound (prio : Fin n → Int) (order : List (Fin n)) (refills m : Nat)
    (k : Kernel n) : Prop where
  turn : (turns prio order)[m % roundLength prio]? = some k.p_proc_ready
  full : (∀ p, k.ticksOf p = prio p) ↔ m % roundLength prio = 0
  refills : k.refills = refills + m / roundLength prio

/-- With positive priorities the interrupts fall into rounds: each process has
its turns in one piece, in the order of the priorities, and the counters are
set back at the end of each round and at no other time. -/
theorem scheduler_shares (k₀ : Kernel n) (hpos : ∀ p, 0 < k₀.priorityOf p)
    (hticks : ∀ p, k₀.ticksOf p = k₀.priorityOf p)
    (hready : FirstGreatest k₀.priorityOf k₀.p_proc_ready) :
    ∃ order : List (Fin n), order.Perm (List.finRange n) ∧
      order.Pairwise (ServedBefore k₀.priorityOf) ∧
      (turns k₀.priorityOf order).length = roundLength k₀.priorityOf ∧
      ∀ arrivals : List Int, (∀ k_reenter ∈ arrivals, k_reenter = 0) →
        ∃ k, exec clockHandler k₀ arrivals = some k ∧
          InRound k₀.priorityOf order k₀.refills arrivals.length k := by
  have horder := serviceOrder_isOrder k₀.priorityOf
  have hall (p : Fin n) : p ∈ serviceOrder k₀.priorityOf :=
    (horder.mem p).mpr (hpos p)
  have hperm : (serviceOrder k₀.priorityOf).Perm (List.finRange n) := by
    rw [List.perm_ext_iff_of_nodup horder.nodup (List.nodup_finRange n)]
    exact fun p => iff_of_true (hall p) (List.mem_finRange p)
  have hlength := turns_length k₀.priorityOf hperm
  refine ⟨serviceOrder k₀.priorityOf, hperm, horder.pairwise, hlength, ?_⟩
  intro arrivals hzero
  have hstart : Starts k₀.priorityOf k₀ :=
    ⟨fun _ => rfl, hticks, hready, hpos _⟩
  obtain ⟨k, hk, hat, hrefills⟩ := (hstart.at horder).run arrivals hzero
  rw [Nat.zero_add, hlength] at hat hrefills
  exact ⟨k, hk, hat.turn, hat.full_iff hall, hrefills⟩

local instance neZero_three : NeZero 3 := ⟨by decide⟩

/-- The table of the `scheduler` kernel. -/
def schedulerKernel : Kernel 3 :=
  ⟨![⟨15, 15⟩, ⟨5, 5⟩, ⟨3, 3⟩], 0, 0⟩

theorem scheduler_shares_three : roundLength schedulerKernel.priorityOf = 23 ∧
    ∃ order : List (Fin 3), order.Perm (List.finRange 3) ∧
      ∃ k, exec clockHandler schedulerKernel (List.replicate 100 0) = some k ∧
        InRound schedulerKernel.priorityOf order 0 100 k := by
  have hpos : ∀ p, 0 < schedulerKernel.priorityOf p := by decide
  have hticks : ∀ p, schedulerKernel.ticksOf p =
      schedulerKernel.priorityOf p := by decide
  have hready : FirstGreatest schedulerKernel.priorityOf
      schedulerKernel.p_proc_ready := by
    unfold FirstGreatest
    decide
  obtain ⟨order, hperm, -, -, hruns⟩ :=
    scheduler_shares schedulerKernel hpos hticks hready
  refine ⟨by decide, order, hperm, ?_⟩
  exact hruns (List.replicate 100 0) fun _ h => List.eq_of_mem_replicate h

end LearningLinux.Scheduler
