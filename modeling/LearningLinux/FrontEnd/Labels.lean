import LearningLinux.FrontEnd.Fragment

/-!
# Label discipline

Labels are made in one class and put into the code by another, and the label
0 stands for falling through, so nothing local says that the two balance.
Over derivations it is local: a chunk puts each of the labels that were made
while it was generated exactly once and no other (`placed`), and it jumps to
those, or to the labels its caller handed in, and never to 0 (`target`).
-/

namespace LearningLinux.FrontEnd

open Lib

/-- The label an instruction may jump to. -/
def Instr.target : Instr → Option Nat
  | .goto l => some l
  | .ifTrue _ l => some l
  | .ifFalse _ l => some l
  | _ => none

/-! ## Counting labels -/

/-- How often a piece of code puts the label `n`. -/
def placed (n : Nat) (k : List Item) : Nat := k.count (.label n)

/-- 1 for the labels after `lo` up to `hi`, and 0 for the others. -/
def between (lo hi n : Nat) : Nat := if lo < n ∧ n ≤ hi then 1 else 0

@[simp] theorem placed_nil (n : Nat) : placed n [] = 0 := rfl

@[simp] theorem placed_append (n : Nat) (k k' : List Item) :
    placed n (k ++ k') = placed n k + placed n k' := List.count_append

@[simp] theorem placed_instr (n : Nat) (i : Instr) (k : List Item) :
    placed n (.instr i :: k) = placed n k := by
  rw [placed, List.count_cons_of_ne (by simp), placed]

@[simp] theorem placed_label (n l : Nat) (k : List Item) :
    placed n (.label (l + 1) :: k) = between l (l + 1) n + placed n k := by
  rw [placed, List.count_cons, placed, Nat.add_comm, between]
  by_cases h : n = l + 1
  · subst h
    simp
  · have hne : ¬ (l < n ∧ n ≤ l + 1) := by omega
    rw [if_neg hne]
    simp
    omega

theorem between_self (l n : Nat) : between l l n = 0 := by
  rw [between]
  split <;> omega

theorem between_trans {l m h : Nat} (hlm : l ≤ m) (hmh : m ≤ h) (n : Nat) :
    between l m n + between m h n = between l h n := by
  simp only [between]
  split_ifs <;> omega

theorem between_succ {l h : Nat} (hle : l + 1 ≤ h) (n : Nat) :
    between l (l + 1) n + between (l + 1) h n = between l h n :=
  between_trans (Nat.le_succ l) hle n

/-! ## Labels of a chunk -/

theorem Reduces.items_of {e : Expr} (hgen : ∀ {g : Expr} {c c' : Nat}
      {k : List Item}, OpGen e g c c' k →
      ∀ it ∈ k, ∃ n x, it = .instr (.setTemp n x))
    {x : Expr} {c c' : Nat} {k : List Item} (h : Reduces e x c c' k) :
    ∀ it ∈ k, ∃ n x, it = .instr (.setTemp n x) := by
  cases h with
  | op hg =>
      intro it hit
      rcases List.mem_append.mp hit with hk | hlast
      · exact hgen hg it hk
      · exact ⟨_, _, List.mem_singleton.mp hlast⟩
  | same he => intro it hit; cases hit

/-- The code of an operator sets temporaries, and does nothing else. -/
theorem OpGen.items {e g : Expr} {c c' : Nat} {k : List Item}
    (h : OpGen e g c c' k) : ∀ it ∈ k, ∃ n x, it = .instr (.setTemp n x) := by
  induction e generalizing g c c' k with
  | arith op x y ihx ihy =>
      cases h with
      | arith hx hy =>
          intro it hit
          rcases List.mem_append.mp hit with h₁ | h₂
          · exact Reduces.items_of ihx hx it h₁
          · exact Reduces.items_of ihy hy it h₂
  | unary x ih =>
      cases h with
      | unary hx => exact Reduces.items_of ih hx
  | access a i type ih =>
      cases h with
      | access hi => exact Reduces.items_of ih hi
  | _ => cases h

theorem Reduces.items {e x : Expr} {c c' : Nat} {k : List Item}
    (h : Reduces e x c c' k) : ∀ it ∈ k, ∃ n x, it = .instr (.setTemp n x) :=
  Reduces.items_of OpGen.items h

theorem placed_eq_zero {k : List Item}
    (h : ∀ it ∈ k, ∃ n x, it = .instr (.setTemp n x)) (n : Nat) :
    placed n k = 0 := by
  refine List.count_eq_zero.mpr fun hmem => ?_
  obtain ⟨m, x, hm⟩ := h _ hmem
  cases hm

theorem placed_jumpItems (n : Nat) (x : Expr) (t f : Nat) :
    placed n (jumpItems x t f) = 0 := by
  rw [jumpItems]
  split
  · simp
  · split
    · simp
    · split <;> simp

theorem placed_gotoItems (n l : Nat) : placed n (gotoItems l) = 0 := by
  rw [gotoItems]
  split <;> simp

/-- A chunk puts the labels made for it, each once. -/
def Balanced (σ σ' : Counters) (k : List Item) : Prop :=
  σ.labels ≤ σ'.labels ∧
    ∀ n, placed n k = between σ.labels σ'.labels n

theorem balanced_of_placed {l c c' : Nat} {k : List Item}
    (h : ∀ n, placed n k = 0) : Balanced ⟨l, c⟩ ⟨l, c'⟩ k := by
  refine ⟨Nat.le_refl l, fun n => ?_⟩
  rw [h n, between_self]

theorem Balanced.append {σ σ₁ σ₂ : Counters} {k₁ k₂ : List Item}
    (h₁ : Balanced σ σ₁ k₁) (h₂ : Balanced σ₁ σ₂ k₂) :
    Balanced σ σ₂ (k₁ ++ k₂) := by
  refine ⟨Nat.le_trans h₁.1 h₂.1, fun n => ?_⟩
  rw [placed_append, h₁.2, h₂.2, between_trans h₁.1 h₂.1]

/-- A label that is made first can be put anywhere in what follows. -/
theorem Balanced.label {l c : Nat} {σ' : Counters} {k₁ k₂ : List Item}
    (h : Balanced ⟨l + 1, c⟩ σ' (k₁ ++ k₂)) :
    Balanced ⟨l, c⟩ σ' (k₁ ++ .label (l + 1) :: k₂) := by
  have hle : l + 1 ≤ σ'.labels := h.1
  refine ⟨Nat.le_of_succ_le hle, fun n => ?_⟩
  have hn : placed n k₁ + placed n k₂ = between (l + 1) σ'.labels n := by
    rw [← placed_append]
    exact h.2 n
  have hsplit := between_succ hle n
  show _ = between l σ'.labels n
  rw [placed_append, placed_label]
  omega

/-- An instruction puts no label. -/
theorem Balanced.instr {σ σ' : Counters} {k₁ k₂ : List Item} (i : Instr)
    (h : Balanced σ σ' (k₁ ++ k₂)) :
    Balanced σ σ' (k₁ ++ .instr i :: k₂) := by
  refine ⟨h.1, fun n => ?_⟩
  rw [← h.2 n, placed_append, placed_append, placed_instr]

theorem Jumps.balanced {e : Expr} {t f : Nat} {σ σ' : Counters} {k : Chunk}
    (h : Jumps e t f σ σ' k) : Balanced σ σ' k.items := by
  induction h with
  | true => exact balanced_of_placed fun n => placed_gotoItems n _
  | false => exact balanced_of_placed fun n => placed_gotoItems n _
  | id => exact balanced_of_placed fun n => placed_jumpItems n _ _ _
  | access hx =>
      refine balanced_of_placed fun n => ?_
      rw [placed_append, placed_eq_zero hx.items, placed_jumpItems]
  | rel hx hy =>
      refine balanced_of_placed fun n => ?_
      rw [placed_append, placed_append, placed_eq_zero hx.items,
        placed_eq_zero hy.items, placed_jumpItems]
  | not hx ih => exact ih
  | orTo ht hx hy ihx ihy => exact ihx.append ihy
  | orFall hx hy ihx ihy =>
      refine Balanced.label ?_
      rw [List.append_nil]
      exact ihx.append ihy
  | andTo hf hx hy ihx ihy => exact ihx.append ihy
  | andFall hx hy ihx ihy =>
      refine Balanced.label ?_
      rw [List.append_nil]
      exact ihx.append ihy

theorem Gens.balanced {e g : Expr} {σ σ' : Counters} {k : Chunk}
    (h : Gens e g σ σ' k) : Balanced σ σ' k.items := by
  cases h with
  | op hg => exact balanced_of_placed (placed_eq_zero hg.items)
  | same ho hl => exact balanced_of_placed placed_nil
  | @logical l c _ k he hj =>
      -- Both labels are made before the jumps and put behind them.
      have hj' : Balanced ⟨l + 2, c⟩ σ' k.items := hj.balanced
      have h₂ : Balanced ⟨l + 1, c⟩ σ' (k.items ++
          [Item.instr (.setTemp (c + 1) (.const .true)),
            Item.instr (.goto (l + 2)),
            Item.instr (.setTemp (c + 1) (.const .false)),
            Item.label (l + 2)]) := by
        refine Balanced.instr _ (Balanced.instr _ (Balanced.instr _ ?_))
        refine Balanced.label ?_
        rw [List.append_nil]
        exact hj'
      have hsplit : k.items ++ logicalItems (c + 1) (l + 1) (l + 2) =
          (k.items ++ [Item.instr (.setTemp (c + 1) (.const .true)),
            Item.instr (.goto (l + 2))]) ++ Item.label (l + 1) ::
            [Item.instr (.setTemp (c + 1) (.const .false)),
              Item.label (l + 2)] := by
        simp [logicalItems]
      rw [hsplit]
      refine Balanced.label ?_
      rw [List.append_assoc]
      exact h₂

theorem StmtCode.balanced {s : Stmt} {b a : Nat} {loop : Nat × Nat}
    {σ σ' : Counters} {k : Chunk} (h : StmtCode s b a loop σ σ' k) :
    Balanced σ σ' k.items := by
  induction h with
  | null => exact balanced_of_placed placed_nil
  | set hx => exact Balanced.instr _ (by simpa using hx.balanced)
  | setElem hx hy =>
      refine balanced_of_placed fun n => ?_
      simp [placed_eq_zero hx.items, placed_eq_zero hy.items]
  | «if» hx hs ih => exact (hx.balanced.append ih).label
  | @«else» x s1 s2 b a loop l c σ₁ σ₂ σ₃ k₁ k₂ k₃ hx hs1 hs2 ih1 ih2 =>
      -- The second label goes behind the `goto`, the first in front of `s1`.
      have h₂ : Balanced ⟨l + 1, c⟩ σ₃ (k₁.items ++ k₂.items ++
          .instr (.goto a) :: .label (l + 2) :: k₃.items) := by
        refine Balanced.instr _ (Balanced.label ?_)
        exact (hx.balanced.append ih1).append ih2
      rw [List.append_assoc] at h₂
      have h₁ := h₂.label
      rw [List.append_assoc]
      exact h₁
  | @«while» n x s b a loop σ l c σ₂ k₁ k₂ hx hs ih =>
      have hs' : Balanced ⟨l, c⟩ σ₂ ([] ++ .label (l + 1) :: k₂.items) :=
        Balanced.label ih
      refine Balanced.instr _ ?_
      rw [List.append_nil]
      exact hx.balanced.append hs'
  | «do» hs hx ih => exact (ih.append hx.balanced).label
  | «break» => exact balanced_of_placed fun n => by simp
  | «continue» => exact balanced_of_placed fun n => by simp
  | seqRight hs ih => exact ih
  | seqLeft hn hs ih => exact ih
  | seq hn1 hn2 hs1 hs2 ih1 ih2 => exact (ih1.append ih2).label

/-! ## Targets of a chunk -/

/-- All jumps of a piece of code go to labels in `P`. -/
def TargetsIn (P : Nat → Prop) (k : List Item) : Prop :=
  ∀ i l, .instr i ∈ k → i.target = some l → P l

theorem targetsIn_nil {P : Nat → Prop} : TargetsIn P [] := by
  intro i l hmem
  cases hmem

theorem targetsIn_append {P : Nat → Prop} {k k' : List Item} :
    TargetsIn P (k ++ k') ↔ TargetsIn P k ∧ TargetsIn P k' := by
  simp only [TargetsIn, List.mem_append]
  grind

theorem targetsIn_cons {P : Nat → Prop} {it : Item} {k : List Item} :
    TargetsIn P (it :: k) ↔ TargetsIn P [it] ∧ TargetsIn P k :=
  targetsIn_append (k := [it])

theorem targetsIn_label {P : Nat → Prop} (l : Nat) :
    TargetsIn P [.label l] := by
  intro i l hmem
  cases List.mem_singleton.mp hmem

theorem targetsIn_goto {P : Nat → Prop} {l : Nat} (h : P l) :
    TargetsIn P [.instr (.goto l)] := by
  intro i l' hmem ht
  cases List.mem_singleton.mp hmem
  cases ht
  exact h

theorem TargetsIn.mono {P Q : Nat → Prop} {k : List Item}
    (h : TargetsIn P k) (hPQ : ∀ l, P l → Q l) : TargetsIn Q k :=
  fun i l hmem ht => hPQ l (h i l hmem ht)

theorem targetsIn_of_setTemp {P : Nat → Prop} {k : List Item}
    (h : ∀ it ∈ k, ∃ n x, it = .instr (.setTemp n x)) : TargetsIn P k := by
  intro i l hmem ht
  obtain ⟨n, x, hi⟩ := h _ hmem
  cases hi
  cases ht

/-- A label the code between two counters may jump to: one it was handed,
which is not 0, or one it made. -/
def Reachable (given : Nat → Prop) (σ σ' : Counters) (l : Nat) : Prop :=
  (given l ∧ l ≠ 0) ∨ (σ.labels < l ∧ l ≤ σ'.labels)

theorem targetsIn_jumpItems (x : Expr) (t f : Nat) (σ σ' : Counters) :
    TargetsIn (Reachable (fun l => l = t ∨ l = f) σ σ')
      (jumpItems x t f) := by
  intro i l hmem ht
  rw [jumpItems] at hmem
  split at hmem
  · next h =>
      rcases List.mem_pair.mp hmem with hi | hi
      · cases hi
        cases ht
        exact .inl ⟨.inl rfl, h.1⟩
      · cases hi
        cases ht
        exact .inl ⟨.inr rfl, h.2⟩
  · split at hmem
    · next h =>
        cases List.mem_singleton.mp hmem
        cases ht
        exact .inl ⟨.inl rfl, h⟩
    · split at hmem
      · next h =>
          cases List.mem_singleton.mp hmem
          cases ht
          exact .inl ⟨.inr rfl, h⟩
      · cases hmem

theorem targetsIn_gotoItems {given : Nat → Prop} {l : Nat} (σ σ' : Counters)
    (h : given l) : TargetsIn (Reachable given σ σ') (gotoItems l) := by
  rw [gotoItems]
  split
  · next hl => exact targetsIn_goto (.inl ⟨h, hl⟩)
  · exact targetsIn_nil

/-- What a part may jump to, the whole may, if the labels it hands on are its
own or made by it. -/
theorem Reachable.widen {given given' : Nat → Prop} {σ σ₁ σ₂ σ' : Counters}
    (hle : σ.labels ≤ σ₁.labels) (hle' : σ₂.labels ≤ σ'.labels)
    (hg : ∀ l, given l → l ≠ 0 → Reachable given' σ σ' l) (l : Nat)
    (h : Reachable given σ₁ σ₂ l) : Reachable given' σ σ' l := by
  rcases h with ⟨hl, hne⟩ | ⟨hlo, hhi⟩
  · exact hg l hl hne
  · exact .inr ⟨Nat.lt_of_le_of_lt hle hlo, Nat.le_trans hhi hle'⟩

theorem Jumps.targets {e : Expr} {t f : Nat} {σ σ' : Counters} {k : Chunk}
    (h : Jumps e t f σ σ' k) :
    TargetsIn (Reachable (fun l => l = t ∨ l = f) σ σ') k.items := by
  induction h with
  | true => exact targetsIn_gotoItems _ _ (.inl rfl)
  | false => exact targetsIn_gotoItems _ _ (.inr rfl)
  | id => exact targetsIn_jumpItems _ _ _ _ _
  | access hx =>
      exact targetsIn_append.mpr ⟨targetsIn_of_setTemp hx.items,
        targetsIn_jumpItems _ _ _ _ _⟩
  | rel hx hy =>
      refine targetsIn_append.mpr ⟨targetsIn_append.mpr ⟨?_, ?_⟩,
        targetsIn_jumpItems _ _ _ _ _⟩
      · exact targetsIn_of_setTemp hx.items
      · exact targetsIn_of_setTemp hy.items
  | not hx ih =>
      refine ih.mono (Reachable.widen (Nat.le_refl _) (Nat.le_refl _) ?_)
      intro l hl hne
      exact .inl ⟨hl.symm, hne⟩
  | orTo ht hx hy ihx ihy =>
      refine targetsIn_append.mpr ⟨ihx.mono (Reachable.widen (Nat.le_refl _)
        hy.balanced.1 ?_), ihy.mono (Reachable.widen hx.balanced.1
        (Nat.le_refl _) ?_)⟩
      · intro l hl hne
        exact .inl ⟨hl.imp_right (absurd · hne), hne⟩
      · exact fun l hl hne => .inl ⟨hl, hne⟩
  | @orFall x y f l c σ₁ σ₂ k₁ k₂ hx hy ihx ihy =>
      have hle : l + 1 ≤ σ₁.labels := hx.balanced.1
      refine targetsIn_append.mpr ⟨targetsIn_append.mpr ⟨ihx.mono
        (Reachable.widen (Nat.le_succ l) hy.balanced.1 ?_), ihy.mono
        (Reachable.widen (Nat.le_of_succ_le hle) (Nat.le_refl _) ?_)⟩,
        targetsIn_label _⟩
      · intro l' hl hne
        rcases hl with hl | hl
        · subst hl
          exact .inr ⟨Nat.lt_succ_self l, Nat.le_trans hle hy.balanced.1⟩
        · exact absurd hl hne
      · exact fun l hl hne => .inl ⟨hl, hne⟩
  | andTo hf hx hy ihx ihy =>
      refine targetsIn_append.mpr ⟨ihx.mono (Reachable.widen (Nat.le_refl _)
        hy.balanced.1 ?_), ihy.mono (Reachable.widen hx.balanced.1
        (Nat.le_refl _) ?_)⟩
      · intro l hl hne
        exact .inl ⟨hl.imp_left (absurd · hne), hne⟩
      · exact fun l hl hne => .inl ⟨hl, hne⟩
  | @andFall x y t l c σ₁ σ₂ k₁ k₂ hx hy ihx ihy =>
      have hle : l + 1 ≤ σ₁.labels := hx.balanced.1
      refine targetsIn_append.mpr ⟨targetsIn_append.mpr ⟨ihx.mono
        (Reachable.widen (Nat.le_succ l) hy.balanced.1 ?_), ihy.mono
        (Reachable.widen (Nat.le_of_succ_le hle) (Nat.le_refl _) ?_)⟩,
        targetsIn_label _⟩
      · intro l' hl hne
        rcases hl with hl | hl
        · exact absurd hl hne
        · subst hl
          exact .inr ⟨Nat.lt_succ_self l, Nat.le_trans hle hy.balanced.1⟩
      · exact fun l hl hne => .inl ⟨hl, hne⟩

theorem Gens.targets {e g : Expr} {σ σ' : Counters} {k : Chunk}
    (given : Nat → Prop) (h : Gens e g σ σ' k) :
    TargetsIn (Reachable given σ σ') k.items := by
  cases h with
  | op hg => exact targetsIn_of_setTemp hg.items
  | same ho hl => exact targetsIn_nil
  | @logical l c _ k he hj =>
      have hle : l + 2 ≤ σ'.labels := hj.balanced.1
      have hto : ∀ n, l < n → n ≤ l + 2 →
          Reachable given ⟨l, c⟩ σ' n := fun n hlo hhi =>
        .inr ⟨hlo, Nat.le_trans hhi hle⟩
      refine targetsIn_append.mpr ⟨hj.targets.mono (Reachable.widen
        (Nat.le_add_right l 2) (Nat.le_refl _) ?_), ?_⟩
      · intro n hn hne
        rcases hn with hn | hn
        · exact absurd hn hne
        · exact hto n (by omega) (by omega)
      · intro i n hmem ht
        have hi : i = .goto (l + 2) := by
          simp only [logicalItems, List.mem_cons, Item.instr.injEq,
            List.not_mem_nil, or_false, reduceCtorEq, false_or] at hmem
          rcases hmem with rfl | rfl | rfl
          · cases ht
          · rfl
          · cases ht
        subst hi
        cases ht
        exact hto _ (by omega) (by omega)

/-- The labels a statement is handed: its own two, and those of the loop
around it if there is one. -/
def Handed (cur : Option Nat) (b a : Nat) (loop : Nat × Nat) (l : Nat) :
    Prop :=
  l = b ∨ l = a ∨ (cur ≠ none ∧ (l = loop.1 ∨ l = loop.2))

theorem StmtCode.targets {s : Stmt} {b a : Nat} {loop : Nat × Nat}
    {σ σ' : Counters} {k : Chunk} (h : StmtCode s b a loop σ σ' k)
    {cur : Option Nat} {lo : Nat} (hin : s.LoopsIn cur lo) (hb : b ≠ 0)
    (ha : a ≠ 0) (hloop : cur ≠ none → loop.1 ≠ 0 ∧ loop.2 ≠ 0) :
    TargetsIn (Reachable (Handed cur b a loop) σ σ') k.items := by
  induction h generalizing cur lo with
  | null => exact targetsIn_nil
  | set hx =>
      refine targetsIn_append.mpr ⟨hx.targets _, ?_⟩
      intro i l hmem ht
      cases List.mem_singleton.mp hmem
      cases ht
  | setElem hx hy =>
      refine targetsIn_append.mpr ⟨targetsIn_append.mpr
        ⟨targetsIn_of_setTemp hx.items, targetsIn_of_setTemp hy.items⟩, ?_⟩
      intro i l hmem ht
      cases List.mem_singleton.mp hmem
      cases ht
  | @«if» x s b a loop l c σ₁ σ₂ k₁ k₂ hx hs ih =>
      have hle : l + 1 ≤ σ₁.labels := hx.balanced.1
      have hle' := hs.balanced.1
      refine targetsIn_append.mpr ⟨hx.targets.mono (Reachable.widen
        (Nat.le_succ l) hle' ?_), targetsIn_cons.mpr ⟨targetsIn_label _,
        (ih hin (Nat.succ_ne_zero l) ha hloop).mono (Reachable.widen
        (Nat.le_of_succ_le hle) (Nat.le_refl _) ?_)⟩⟩
      · intro n hn hne
        exact .inl ⟨.inr (.inl (hn.resolve_left hne)), hne⟩
      · intro n hn hne
        rcases hn with hn | hn | hn
        · exact .inr ⟨by show l < n; omega, by omega⟩
        · exact .inl ⟨.inr (.inl hn), hne⟩
        · exact .inl ⟨.inr (.inr hn), hne⟩
  | @«else» x s1 s2 b a loop l c σ₁ σ₂ σ₃ k₁ k₂ k₃ hx hs1 hs2 ih1 ih2 =>
      have hle₁ : l + 2 ≤ σ₁.labels := hx.balanced.1
      have hle₂ := hs1.balanced.1
      have hle₃ := hs2.balanced.1
      have hown : ∀ n, l < n → n ≤ l + 2 →
          Reachable (Handed cur b a loop) ⟨l, c⟩ σ₃ n := fun n hlo hhi =>
        .inr ⟨hlo, by omega⟩
      have hlift : ∀ m, l < m → m ≤ l + 2 → ∀ n, Handed cur m a loop n →
          n ≠ 0 → Reachable (Handed cur b a loop) ⟨l, c⟩ σ₃ n := by
        intro m hlo hhi n hn hne
        rcases hn with hn | hn | hn
        · exact hown n (by omega) (by omega)
        · exact .inl ⟨.inr (.inl hn), hne⟩
        · exact .inl ⟨.inr (.inr hn), hne⟩
      refine targetsIn_append.mpr ⟨targetsIn_append.mpr ⟨hx.targets.mono
        (Reachable.widen (Nat.le_add_right l 2) (by omega) ?_),
        targetsIn_cons.mpr ⟨targetsIn_label _, (ih1 hin.1 (Nat.succ_ne_zero l)
        ha hloop).mono (Reachable.widen (by show l ≤ _; omega) hle₃
        (hlift _ (by omega) (by omega)))⟩⟩, targetsIn_cons.mpr
        ⟨targetsIn_goto (.inl ⟨.inr (.inl rfl), ha⟩), targetsIn_cons.mpr
        ⟨targetsIn_label _, (ih2 hin.2 (Nat.succ_ne_zero _) ha hloop).mono
        (Reachable.widen (by show l ≤ _; omega) (Nat.le_refl _)
        (hlift _ (by omega) (by omega)))⟩⟩⟩
      intro n hn hne
      exact hown n (by omega) (by omega)
  | @«while» n x s b a loop σ l c σ₂ k₁ k₂ hx hs ih =>
      have hle : σ.labels ≤ l := hx.balanced.1
      have hle' : l + 1 ≤ σ₂.labels := hs.balanced.1
      refine targetsIn_append.mpr ⟨targetsIn_append.mpr ⟨hx.targets.mono
        (Reachable.widen (Nat.le_refl _) (by show l ≤ _; omega) ?_),
        targetsIn_cons.mpr ⟨targetsIn_label _, (ih hin.2 (Nat.succ_ne_zero l)
        hb fun _ => ⟨hb, ha⟩).mono (Reachable.widen
        (by show _ ≤ l + 1; omega) (Nat.le_refl _) ?_)⟩⟩,
        targetsIn_goto (.inl ⟨.inl rfl, hb⟩)⟩
      · intro n hn hne
        exact .inl ⟨.inr (.inl (hn.resolve_left hne)), hne⟩
      · intro n hn hne
        rcases hn with hn | hn | ⟨-, hn | hn⟩
        · exact .inr ⟨by omega, by omega⟩
        · exact .inl ⟨.inl hn, hne⟩
        · exact .inl ⟨.inl hn, hne⟩
        · exact .inl ⟨.inr (.inl hn), hne⟩
  | @«do» n x s b a loop l c σ₁ σ₂ k₁ k₂ hs hx ih =>
      have hle : l + 1 ≤ σ₁.labels := hs.balanced.1
      have hle' := hx.balanced.1
      refine targetsIn_append.mpr ⟨(ih hin.2 hb (Nat.succ_ne_zero l)
        fun _ => ⟨hb, ha⟩).mono (Reachable.widen (Nat.le_succ l) hle' ?_),
        targetsIn_cons.mpr ⟨targetsIn_label _, hx.targets.mono
        (Reachable.widen (Nat.le_of_succ_le hle) (Nat.le_refl _) ?_)⟩⟩
      · intro n hn hne
        rcases hn with hn | hn | ⟨-, hn | hn⟩
        · exact .inl ⟨.inl hn, hne⟩
        · exact .inr ⟨by show l < n; omega, by omega⟩
        · exact .inl ⟨.inl hn, hne⟩
        · exact .inl ⟨.inr (.inl hn), hne⟩
      · intro n hn hne
        exact .inl ⟨.inl (hn.resolve_right hne), hne⟩
  | «break» =>
      have hsome : cur ≠ none := by rw [hin]; exact Option.some_ne_none _
      exact targetsIn_goto (.inl ⟨.inr (.inr ⟨hsome, .inr rfl⟩),
        (hloop hsome).2⟩)
  | «continue» =>
      have hsome : cur ≠ none := by rw [hin]; exact Option.some_ne_none _
      exact targetsIn_goto (.inl ⟨.inr (.inr ⟨hsome, .inl rfl⟩),
        (hloop hsome).1⟩)
  | seqRight hs ih => exact ih hin.2 hb ha hloop
  | seqLeft hn hs ih => exact ih hin.1 hb ha hloop
  | @seq s1 s2 b a loop l c σ₁ σ₂ k₁ k₂ hn1 hn2 hs1 hs2 ih1 ih2 =>
      have hle : l + 1 ≤ σ₁.labels := hs1.balanced.1
      have hle' := hs2.balanced.1
      refine targetsIn_append.mpr ⟨(ih1 hin.1 hb (Nat.succ_ne_zero l)
        hloop).mono (Reachable.widen (Nat.le_succ l) hle' ?_),
        targetsIn_cons.mpr ⟨targetsIn_label _, (ih2 hin.2 (Nat.succ_ne_zero l)
        ha hloop).mono (Reachable.widen (Nat.le_of_succ_le hle)
        (Nat.le_refl _) ?_)⟩⟩
      · intro n hn hne
        rcases hn with hn | hn | hn
        · exact .inl ⟨.inl hn, hne⟩
        · exact .inr ⟨by show l < n; omega, by omega⟩
        · exact .inl ⟨.inr (.inr hn), hne⟩
      · intro n hn hne
        rcases hn with hn | hn | hn
        · exact .inr ⟨by show l < n; omega, by omega⟩
        · exact .inl ⟨.inr (.inl hn), hne⟩
        · exact .inl ⟨.inr (.inr hn), hne⟩

/-! ## Calls of `jumping` -/

theorem Jumps.calls {e : Expr} {t f : Nat} {σ σ' : Counters} {k : Chunk}
    (h : Jumps e t f σ σ' k) (htf : t ≠ 0 ∨ f ≠ 0) :
    ∀ p ∈ k.calls, p ≠ (0, 0) := by
  have hself : ∀ {t f : Nat}, t ≠ 0 ∨ f ≠ 0 → (t, f) ≠ (0, 0) := by
    intro t f htf heq
    cases heq
    exact htf.elim (absurd rfl) (absurd rfl)
  induction h with
  | true | false | id | access _ | rel _ _ =>
      intro p hp
      rw [List.mem_singleton.mp hp]
      exact hself htf
  | not hx ih => exact List.forall_mem_cons.mpr ⟨hself htf, ih htf.symm⟩
  | orTo ht hx hy ihx ihy =>
      exact List.forall_mem_cons.mpr ⟨hself htf,
        List.forall_mem_append.mpr ⟨ihx (.inl ht), ihy htf⟩⟩
  | orFall hx hy ihx ihy =>
      exact List.forall_mem_cons.mpr ⟨hself htf, List.forall_mem_append.mpr
        ⟨ihx (.inl (Nat.succ_ne_zero _)), ihy htf⟩⟩
  | andTo hf hx hy ihx ihy =>
      exact List.forall_mem_cons.mpr ⟨hself htf,
        List.forall_mem_append.mpr ⟨ihx (.inr hf), ihy htf⟩⟩
  | andFall hx hy ihx ihy =>
      exact List.forall_mem_cons.mpr ⟨hself htf, List.forall_mem_append.mpr
        ⟨ihx (.inr (Nat.succ_ne_zero _)), ihy htf⟩⟩

theorem Gens.calls {e g : Expr} {σ σ' : Counters} {k : Chunk}
    (h : Gens e g σ σ' k) : ∀ p ∈ k.calls, p ≠ (0, 0) := by
  cases h with
  | op hg => exact fun p hp => nomatch hp
  | same ho hl => exact fun p hp => nomatch hp
  | logical he hj => exact hj.calls (.inr (Nat.succ_ne_zero _))

theorem StmtCode.calls {s : Stmt} {b a : Nat} {loop : Nat × Nat}
    {σ σ' : Counters} {k : Chunk} (h : StmtCode s b a loop σ σ' k)
    (hb : b ≠ 0) (ha : a ≠ 0) : ∀ p ∈ k.calls, p ≠ (0, 0) := by
  induction h with
  | null => exact fun p hp => nomatch hp
  | set hx => exact hx.calls
  | setElem hx hy => exact fun p hp => nomatch hp
  | «if» hx hs ih =>
      exact List.forall_mem_append.mpr ⟨hx.calls (.inr ha),
        ih (Nat.succ_ne_zero _) ha⟩
  | «else» hx hs1 hs2 ih1 ih2 =>
      refine List.forall_mem_append.mpr ⟨List.forall_mem_append.mpr
        ⟨hx.calls (.inr (Nat.succ_ne_zero _)), ?_⟩, ?_⟩
      · exact ih1 (Nat.succ_ne_zero _) ha
      · exact ih2 (Nat.succ_ne_zero _) ha
  | «while» hx hs ih =>
      exact List.forall_mem_append.mpr ⟨hx.calls (.inr ha),
        ih (Nat.succ_ne_zero _) hb⟩
  | «do» hs hx ih =>
      exact List.forall_mem_append.mpr ⟨ih hb (Nat.succ_ne_zero _),
        hx.calls (.inl hb)⟩
  | «break» => exact fun p hp => nomatch hp
  | «continue» => exact fun p hp => nomatch hp
  | seqRight hs ih => exact ih hb ha
  | seqLeft hn hs ih => exact ih hb ha
  | seq hn1 hn2 hs1 hs2 ih1 ih2 =>
      exact List.forall_mem_append.mpr ⟨ih1 hb (Nat.succ_ne_zero _),
        ih2 (Nat.succ_ne_zero _) ha⟩

/-! ## Accepted programs -/

/-- The labels `newlabel` has produced are those from 1 to `labels`. -/
structure LabelDiscipline (g : GState) : Prop where
  once : ∀ l, 1 ≤ l → l ≤ g.labels → g.out.count (.label l) = 1
  only : ∀ l, .label l ∈ g.out → 1 ≤ l ∧ l ≤ g.labels
  targets : ∀ i l, .instr i ∈ g.out → i.target = some l →
    l ≠ 0 ∧ .label l ∈ g.out
  calls : ∀ p ∈ g.calls, p ≠ (0, 0)

theorem ProgramCode.placed {s : Stmt} {g : GState} {k : Chunk}
    (h : ProgramCode s g k) (n : Nat) :
    placed n g.out = between 0 g.labels n := by
  have hbal : Balanced ⟨2, 0⟩ g.counters k.items := h.code.balanced
  have h₂ : Balanced ⟨1, 0⟩ g.counters (k.items ++ [Item.label 2]) := by
    refine Balanced.label ?_
    rw [List.append_nil]
    exact hbal
  have h₁ : Balanced ⟨0, 0⟩ g.counters
      ([] ++ Item.label 1 :: (k.items ++ [Item.label 2])) := Balanced.label h₂
  rw [h.out]
  exact h₁.2 n

theorem mem_out_iff {n : Nat} {k : List Item} :
    .label n ∈ k ↔ 0 < placed n k := List.count_pos_iff.symm

theorem ProgramCode.labelDiscipline {s : Stmt} {g : GState} {k : Chunk}
    (hk : ProgramCode s g k) (hin : s.LoopsIn none 0) :
    LabelDiscipline g := by
  have hput := hk.placed
  refine ⟨?_, ?_, ?_, ?_⟩
  · intro l hlo hhi
    have hl := hput l
    rw [between, if_pos ⟨hlo, hhi⟩] at hl
    exact hl
  · intro l hmem
    rw [mem_out_iff, hput l, between] at hmem
    split at hmem
    · assumption
    · cases hmem
  · intro i l hmem ht
    have htargets := hk.code.targets hin (by decide) (by decide)
      (absurd rfl)
    have hmem' : .instr i ∈ k.items := by
      rw [hk.out] at hmem
      simpa using hmem
    have hto := htargets i l hmem' ht
    have hle : 2 ≤ g.labels := hk.code.balanced.1
    have hrange : 0 < l ∧ l ≤ g.labels := by
      rcases hto with ⟨hl | hl | ⟨hc, -⟩, hne⟩ | ⟨hlo, hhi⟩
      · omega
      · omega
      · exact absurd rfl hc
      · exact ⟨Nat.lt_of_le_of_lt (Nat.zero_le _) hlo, hhi⟩
    refine ⟨Nat.pos_iff_ne_zero.mp hrange.1, mem_out_iff.mpr ?_⟩
    rw [hput l, between, if_pos hrange]
    exact Nat.one_pos
  · rw [hk.calls]
    exact hk.code.calls (by decide) (by decide)

theorem program_labelDiscipline {toks : List Token} {o : Output}
    (h : program toks = .ok o) : LabelDiscipline o.gen := by
  obtain ⟨-, hin, -⟩ := program_built h
  obtain ⟨-, -, k, hk⟩ := program_code h
  exact hk.labelDiscipline hin

/-- A loop in a loop, left by `break` from inside an `if`. -/
theorem program_labelDiscipline_loops : ∃ o : Output,
    main ("\x7b int i; bool b; while (i < 9 && !b) " ++
      "do if (b || i == 3) break; else i = i + 1; while (true); \x7d") = .ok o ∧
      LabelDiscipline o.gen := by
  obtain ⟨o, ho, -⟩ := exists_of_okAnd (p := fun _ => true) (x := main
    ("\x7b int i; bool b; while (i < 9 && !b) " ++
      "do if (b || i == 3) break; else i = i + 1; while (true); \x7d"))
    (by decide +kernel)
  exact ⟨o, ho, program_labelDiscipline ho⟩

end LearningLinux.FrontEnd
