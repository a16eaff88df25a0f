import Mathlib.Data.List.Forall2

/-!
# Lexical scoping

A text is read from left to right; blocks open and close in it, names are
declared and used. An `Occ` is one such place, `decl` and `use` with
something written beside the name: what has been declared there, and what the
use was taken to mean.

`ResolvesTo` is the rule itself, in terms of positions in the text: of the
blocks around a use, the innermost that has declared the name before, and the
latest declaration there. `Tables` says that a stack of tables has in it what
the text so far has declared in the blocks that are open. Looking a name up in
such a stack, innermost table first, is the rule (`Tables.resolves`).
-/

namespace LearningLinux.Lib.Scopes

variable {ν ι : Type}

inductive Occ (ν ι : Type) where
  | opened
  | closed
  | decl (name : ν) (what : ι)
  | use (name : ν) (what : ι)
  deriving DecidableEq, Repr

def Occ.name : Occ ν ι → Option ν
  | .decl x _ => some x
  | .use x _ => some x
  | _ => none

/-- What a use was taken to mean. -/
def Occ.used : Occ ν ι → Option ι
  | .use _ a => some a
  | _ => none

/-! ## Blocks and declarations -/

/-- The blocks open in front of position `i`, the innermost first. A block is
named by the position at which it opens. -/
def enclosing (text : List (Occ ν ι)) : Nat → List Nat
  | 0 => []
  | i + 1 =>
      match text[i]? with
      | some .opened => i :: enclosing text i
      | some .closed => (enclosing text i).tail
      | _ => enclosing text i

/-- At `j`, somewhere before `i`, the block `B` declares `x`. -/
structure DeclaredIn (text : List (Occ ν ι)) (i B : Nat) (x : ν)
    (j : Nat) : Prop where
  before : j < i
  decl : ∃ a, text[j]? = some (.decl x a)
  block : (enclosing text j).head? = some B

/-- What `x` means at `i` is its declaration at `j`. -/
def ResolvesTo (text : List (Occ ν ι)) (i : Nat) (x : ν) (j : Nat) : Prop :=
  ∃ inner B outer, enclosing text i = inner ++ B :: outer ∧
    (∀ B' ∈ inner, ∀ j', ¬ DeclaredIn text i B' x j') ∧
    DeclaredIn text i B x j ∧ ∀ j', DeclaredIn text i B x j' → j' ≤ j

/-- Every use means what its declaration declared, and no block declares a
name twice. -/
structure WellScoped (text : List (Occ ν ι)) : Prop where
  resolved : ∀ i x a, text[i]? = some (.use x a) →
    ∃ j, ResolvesTo text i x j ∧ text[j]? = some (.decl x a)
  once : ∀ B x j j', DeclaredIn text text.length B x j →
    DeclaredIn text text.length B x j' → j = j'

theorem ResolvesTo.enclosed {text : List (Occ ν ι)} {i j : Nat} {x : ν}
    (h : ResolvesTo text i x j) :
    j < i ∧ ∃ B ∈ enclosing text i, (enclosing text j).head? = some B := by
  obtain ⟨inner, B, outer, hi, -, hj, -⟩ := h
  refine ⟨hj.before, B, ?_, hj.block⟩
  rw [hi]
  exact List.mem_append_right inner List.mem_cons_self

theorem lt_of_mem_enclosing {text : List (Occ ν ι)} {B : Nat} :
    ∀ {i : Nat}, B ∈ enclosing text i → B < i := by
  intro i
  induction i with
  | zero => intro h; cases h
  | succ i ih =>
      intro h
      rw [enclosing] at h
      split at h
      · rcases List.mem_cons.mp h with rfl | h
        · exact Nat.lt_succ_self _
        · exact Nat.lt_succ_of_lt (ih h)
      · exact Nat.lt_succ_of_lt (ih (List.mem_of_mem_tail h))
      · exact Nat.lt_succ_of_lt (ih h)

/-- Inner blocks open later. -/
theorem enclosing_sorted (text : List (Occ ν ι)) : ∀ i : Nat,
    (enclosing text i).Pairwise (· > ·) := by
  intro i
  induction i with
  | zero => exact List.Pairwise.nil
  | succ i ih =>
      rw [enclosing]
      split
      · exact List.pairwise_cons.mpr ⟨fun B hB => lt_of_mem_enclosing hB, ih⟩
      · exact ih.tail
      · exact ih

theorem DeclaredIn.lt {text : List (Occ ν ι)} {i B j : Nat} {x : ν}
    (h : DeclaredIn text i B x j) : B < j :=
  lt_of_mem_enclosing (List.mem_of_mem_head? h.block)

/-! ## Reading on

What stands in front of a position does not depend on what follows.
-/

section Append

variable {text more : List (Occ ν ι)}

theorem enclosing_append : ∀ {i : Nat}, i ≤ text.length →
    enclosing (text ++ more) i = enclosing text i := by
  intro i
  induction i with
  | zero => intro _; rfl
  | succ i ih =>
      intro h
      rw [enclosing, enclosing, List.getElem?_append_left (by omega),
        ih (by omega)]

theorem declaredIn_append {i B j : Nat} {x : ν} (h : i ≤ text.length) :
    DeclaredIn (text ++ more) i B x j ↔ DeclaredIn text i B x j := by
  constructor
  · intro ⟨hlt, hdecl, hblock⟩
    rw [List.getElem?_append_left (by omega)] at hdecl
    rw [enclosing_append (by omega)] at hblock
    exact ⟨hlt, hdecl, hblock⟩
  · intro ⟨hlt, hdecl, hblock⟩
    refine ⟨hlt, ?_, ?_⟩
    · rw [List.getElem?_append_left (by omega)]
      exact hdecl
    · rw [enclosing_append (by omega)]
      exact hblock

theorem resolvesTo_append {i j : Nat} {x : ν} (h : i ≤ text.length) :
    ResolvesTo (text ++ more) i x j ↔ ResolvesTo text i x j := by
  simp only [ResolvesTo, enclosing_append h, declaredIn_append h]

end Append

section Snoc

variable {text : List (Occ ν ι)} {o : Occ ν ι}

theorem getElem?_snoc_self : (text ++ [o])[text.length]? = some o := by
  rw [List.getElem?_append_right (Nat.le_refl _), Nat.sub_self]
  rfl

theorem enclosing_snoc : enclosing (text ++ [o]) (text.length + 1) =
    match o with
    | .opened => text.length :: enclosing text text.length
    | .closed => (enclosing text text.length).tail
    | _ => enclosing text text.length := by
  rw [enclosing, getElem?_snoc_self, enclosing_append (Nat.le_refl _)]
  cases o <;> rfl

/-- One step on, there is what there was, and what the step declares. -/
theorem declaredIn_snoc {B j : Nat} {x : ν} :
    DeclaredIn (text ++ [o]) (text.length + 1) B x j ↔
      DeclaredIn text text.length B x j ∨
        (j = text.length ∧ (∃ a, o = .decl x a) ∧
          (enclosing text text.length).head? = some B) := by
  constructor
  · intro ⟨hlt, ⟨a, hdecl⟩, hblock⟩
    by_cases hj : j = text.length
    · subst hj
      rw [getElem?_snoc_self] at hdecl
      rw [enclosing_append (Nat.le_refl _)] at hblock
      exact .inr ⟨rfl, ⟨a, Option.some.inj hdecl⟩, hblock⟩
    · rw [List.getElem?_append_left (by omega)] at hdecl
      rw [enclosing_append (by omega)] at hblock
      exact .inl ⟨by omega, ⟨a, hdecl⟩, hblock⟩
  · rintro (h | ⟨rfl, ⟨a, rfl⟩, hblock⟩)
    · obtain ⟨hlt, hdecl, hblock⟩ :=
        (declaredIn_append (Nat.le_refl _)).mpr h
      exact ⟨Nat.lt_succ_of_lt hlt, hdecl, hblock⟩
    · refine ⟨Nat.lt_succ_self _, ⟨a, getElem?_snoc_self⟩, ?_⟩
      rw [enclosing_append (Nat.le_refl _)]
      exact hblock

theorem declaredIn_snoc_of_ne {B j : Nat} {x : ν} (h : ∀ x a, o ≠ .decl x a) :
    DeclaredIn (text ++ [o]) (text.length + 1) B x j ↔
      DeclaredIn text text.length B x j := by
  rw [declaredIn_snoc]
  exact or_iff_left fun ⟨_, ⟨a, ho⟩, _⟩ => h x a ho

end Snoc

/-! ## Steps of a well scoped text -/

namespace WellScoped

variable {text : List (Occ ν ι)}

theorem nil : WellScoped ([] : List (Occ ν ι)) where
  resolved _ _ _ h := by cases h
  once _ _ _ _ h := by
    obtain ⟨hlt, -, -⟩ := h
    cases hlt

/-- The uses of a text go on meaning what they mean. -/
theorem resolved_snoc (h : WellScoped text) {o : Occ ν ι}
    (ho : ∀ x a, o = .use x a →
      ∃ j, ResolvesTo text text.length x j ∧ text[j]? = some (.decl x a)) :
    ∀ i x a, (text ++ [o])[i]? = some (.use x a) →
      ∃ j, ResolvesTo (text ++ [o]) i x j ∧
        (text ++ [o])[j]? = some (.decl x a) := by
  intro i x a hi
  have hstays : ∀ i ≤ text.length, (∃ j, ResolvesTo text i x j ∧
      text[j]? = some (.decl x a)) → ∃ j, ResolvesTo (text ++ [o]) i x j ∧
        (text ++ [o])[j]? = some (.decl x a) := by
    intro i hle ⟨j, hj, hdecl⟩
    have hlt := hj.enclosed.1
    refine ⟨j, (resolvesTo_append hle).mpr hj, ?_⟩
    rw [List.getElem?_append_left (by omega)]
    exact hdecl
  by_cases hlt : i < text.length
  · rw [List.getElem?_append_left hlt] at hi
    exact hstays i (Nat.le_of_lt hlt) (h.resolved i x a hi)
  · obtain ⟨hle, -⟩ := List.getElem?_eq_some_iff.mp hi
    rw [List.length_append, List.length_singleton] at hle
    obtain rfl : i = text.length := by omega
    rw [getElem?_snoc_self] at hi
    exact hstays _ (Nat.le_refl _) (ho x a (Option.some.inj hi))

theorem snoc (h : WellScoped text) {o : Occ ν ι} (hd : ∀ x a, o ≠ .decl x a)
    (ho : ∀ x a, o = .use x a →
      ∃ j, ResolvesTo text text.length x j ∧ text[j]? = some (.decl x a)) :
    WellScoped (text ++ [o]) where
  resolved := h.resolved_snoc ho
  once B x j j' hj hj' := by
    rw [List.length_append] at hj hj'
    exact h.once B x j j' ((declaredIn_snoc_of_ne hd).mp hj)
      ((declaredIn_snoc_of_ne hd).mp hj')

/-- A block may declare what it has not declared yet. -/
theorem decl (h : WellScoped text) {x : ν} {a : ι} {B : Nat}
    (hB : (enclosing text text.length).head? = some B)
    (hnew : ∀ j, ¬ DeclaredIn text text.length B x j) :
    WellScoped (text ++ [Occ.decl x a]) where
  resolved := h.resolved_snoc nofun
  once B' y j j' hj hj' := by
    rw [List.length_append] at hj hj'
    have hfresh : ∀ {k}, (∃ b, Occ.decl x a = .decl y b) →
        (enclosing text text.length).head? = some B' →
        ¬ DeclaredIn text text.length B' y k := by
      intro k ⟨b, hb⟩ hhead hk
      obtain ⟨rfl, -⟩ := Occ.decl.inj hb
      rw [hB] at hhead
      cases hhead
      exact hnew k hk
    rcases declaredIn_snoc.mp hj with h₁ | ⟨rfl, hy, hhead⟩
    · rcases declaredIn_snoc.mp hj' with h₂ | ⟨rfl, hy, hhead⟩
      · exact h.once B' y j j' h₁ h₂
      · exact absurd h₁ (hfresh hy hhead)
    · rcases declaredIn_snoc.mp hj' with h₂ | ⟨rfl, -, -⟩
      · exact absurd h₂ (hfresh hy hhead)
      · rfl

end WellScoped

/-! ## A stack of tables -/

/-- The first table that has the name, the innermost first. -/
def lookup : List (ν → Option ι) → ν → Option ι
  | [], _ => none
  | t :: prev, x => (t x).or (lookup prev x)

/-- The table holds what the block `B` has declared so far. -/
def TableOf (text : List (Occ ν ι)) (B : Nat) (table : ν → Option ι) : Prop :=
  ∀ x a, table x = some a ↔
    ∃ j, DeclaredIn text text.length B x j ∧ text[j]? = some (.decl x a)

/-- The stack has the tables of the open blocks. -/
def Tables (text : List (Occ ν ι)) (env : List (ν → Option ι)) : Prop :=
  List.Forall₂ (TableOf text) (enclosing text text.length) env

theorem TableOf.not_declared {text : List (Occ ν ι)} {B : Nat}
    {table : ν → Option ι} (h : TableOf text B table) {x : ν}
    (hnone : table x = none) (j : Nat) :
    ¬ DeclaredIn text text.length B x j := by
  intro hj
  obtain ⟨a, ha⟩ := hj.decl
  have hsome := (h x a).mpr ⟨j, hj, ha⟩
  rw [hnone] at hsome
  cases hsome

/-- A step that declares nothing in `B` leaves its table as it is. -/
theorem TableOf.snoc {text : List (Occ ν ι)} {B : Nat}
    {table : ν → Option ι} (h : TableOf text B table) {o : Occ ν ι}
    (ho : ∀ x a, o = .decl x a →
      (enclosing text text.length).head? ≠ some B) :
    TableOf (text ++ [o]) B table := by
  intro x a
  rw [h x a, List.length_append, List.length_singleton]
  refine exists_congr fun j => ?_
  have hsame : DeclaredIn (text ++ [o]) (text.length + 1) B x j ↔
      DeclaredIn text text.length B x j := by
    rw [declaredIn_snoc]
    exact or_iff_left fun ⟨_, ⟨b, hb⟩, hhead⟩ => ho x b hb hhead
  rw [hsame]
  refine and_congr_right fun hj => ?_
  rw [List.getElem?_append_left hj.before]

/-- The block in which a name is declared gets it into its table. -/
theorem TableOf.decl {text : List (Occ ν ι)} {B : Nat} {t t' : ν → Option ι}
    (h : TableOf text B t) {x : ν} {a : ι} (hnone : t x = none)
    (hx : t' x = some a) (hother : ∀ y, y ≠ x → t' y = t y)
    (hB : (enclosing text text.length).head? = some B) :
    TableOf (text ++ [Occ.decl x a]) B t' := by
  intro y b
  rw [List.length_append, List.length_singleton]
  by_cases hy : y = x
  · subst hy
    rw [hx, Option.some.injEq]
    constructor
    · rintro rfl
      exact ⟨text.length, declaredIn_snoc.mpr (.inr ⟨rfl, ⟨a, rfl⟩, hB⟩),
        getElem?_snoc_self⟩
    · intro ⟨j, hj, hdecl⟩
      rcases declaredIn_snoc.mp hj with hold | ⟨rfl, -, -⟩
      · exact absurd hold (h.not_declared hnone j)
      · rw [getElem?_snoc_self] at hdecl
        cases hdecl
        rfl
  · rw [hother y hy, h y b]
    refine exists_congr fun j => ?_
    have hsame : DeclaredIn (text ++ [Occ.decl x a]) (text.length + 1) B y j ↔
        DeclaredIn text text.length B y j := by
      rw [declaredIn_snoc]
      refine or_iff_left fun ⟨_, ⟨c, hc⟩, _⟩ => hy ?_
      exact (Occ.decl.inj hc).1.symm
    rw [hsame]
    refine and_congr_right fun hj => ?_
    rw [List.getElem?_append_left hj.before]

/-- Along a stack, a name is found in the first block that has declared it. -/
theorem lookup_some {text : List (Occ ν ι)} {Bs : List Nat}
    {env : List (ν → Option ι)} {x : ν} {a : ι}
    (h : List.Forall₂ (TableOf text) Bs env) (hl : lookup env x = some a) :
    ∃ inner B outer j, Bs = inner ++ B :: outer ∧
      (∀ B' ∈ inner, ∀ j', ¬ DeclaredIn text text.length B' x j') ∧
      DeclaredIn text text.length B x j ∧ text[j]? = some (.decl x a) := by
  induction h with
  | nil => cases hl
  | @cons B table Bs env htable _ ih =>
      rw [lookup] at hl
      cases hx : table x with
      | some b =>
          rw [hx] at hl
          cases hl
          obtain ⟨j, hj, hdecl⟩ := (htable x _).mp hx
          exact ⟨[], B, Bs, j, rfl, nofun, hj, hdecl⟩
      | none =>
          rw [hx] at hl
          obtain ⟨inner, B', outer, j, rfl, hinner, hj, hdecl⟩ := ih hl
          refine ⟨B :: inner, B', outer, j, rfl, ?_, hj, hdecl⟩
          intro C hC
          rcases List.mem_cons.mp hC with rfl | hC
          · exact htable.not_declared hx
          · exact hinner C hC

namespace Tables

variable {text : List (Occ ν ι)} {env : List (ν → Option ι)}

/-- What the stack answers is what the scope rule says. -/
theorem resolves (hs : WellScoped text) (h : Tables text env) {x : ν} {a : ι}
    (hl : lookup env x = some a) :
    ∃ j, ResolvesTo text text.length x j ∧ text[j]? = some (.decl x a) := by
  obtain ⟨inner, B, outer, j, hBs, hinner, hj, hdecl⟩ := lookup_some h hl
  refine ⟨j, ⟨inner, B, outer, hBs, hinner, hj, fun j' hj' => ?_⟩, hdecl⟩
  exact Nat.le_of_eq (hs.once B x j' j hj' hj)

theorem nil : Tables ([] : List (Occ ν ι)) [] := List.Forall₂.nil

theorem use (h : Tables text env) (x : ν) (a : ι) :
    Tables (text ++ [Occ.use x a]) env := by
  rw [Tables, List.length_append, List.length_singleton, enclosing_snoc]
  exact h.imp fun B table htable => htable.snoc nofun

/-- A block opens with an empty table. -/
theorem opened (h : Tables text env) :
    Tables (text ++ [Occ.opened]) ((fun _ => none) :: env) := by
  rw [Tables, List.length_append, List.length_singleton, enclosing_snoc]
  refine .cons ?_ (h.imp fun B table htable => htable.snoc nofun)
  refine TableOf.snoc (fun x a => ?_) nofun
  constructor
  · nofun
  · intro ⟨j, hj, _⟩
    have h₁ := hj.lt
    have h₂ := hj.before
    omega

/-- At its end its table goes. -/
theorem closed {t : ν → Option ι} (h : Tables text (t :: env)) :
    Tables (text ++ [Occ.closed]) env := by
  rw [Tables, List.length_append, List.length_singleton, enclosing_snoc]
  obtain ⟨B, Bs, -, htail, hBs⟩ := List.forall₂_cons_right_iff.mp h
  rw [hBs]
  exact htail.imp fun B table htable => htable.snoc nofun

/-- A declaration goes into the innermost table. -/
theorem decl {t t' : ν → Option ι} (h : Tables text (t :: env)) {x : ν}
    {a : ι} (hnone : t x = none) (hx : t' x = some a)
    (hother : ∀ y, y ≠ x → t' y = t y) :
    Tables (text ++ [Occ.decl x a]) (t' :: env) ∧
      ∃ B, (enclosing text text.length).head? = some B ∧
        ∀ j, ¬ DeclaredIn text text.length B x j := by
  obtain ⟨B, Bs, hhead, htail, hBs⟩ := List.forall₂_cons_right_iff.mp h
  have hB : (enclosing text text.length).head? = some B := by rw [hBs]; rfl
  refine ⟨?_, B, hB, hhead.not_declared hnone⟩
  rw [Tables, List.length_append, List.length_singleton, enclosing_snoc, hBs]
  refine .cons (hhead.decl hnone hx hother hB) ?_
  -- the outer blocks opened earlier, so they are not this one
  have hsorted := enclosing_sorted text text.length
  rw [hBs] at hsorted
  have hearlier := (List.pairwise_cons.mp hsorted).1
  have hboth := (List.forall₂_and_left Bs env).mpr ⟨hearlier, htail⟩
  refine hboth.imp fun C table ⟨hC, htable⟩ => htable.snoc fun _ _ _ => ?_
  rw [hB]
  intro heq
  cases heq
  exact Nat.lt_irrefl _ hC

end Tables

/-! ## Other names

The rule asks only which names are the same, and not what is written beside
them.
-/

section Map

variable {μ κ : Type} {f : ν → μ} {g : ι → κ}

def Occ.map (f : ν → μ) (g : ι → κ) : Occ ν ι → Occ μ κ
  | .opened => .opened
  | .closed => .closed
  | .decl x a => .decl (f x) (g a)
  | .use x a => .use (f x) (g a)

variable {text : List (Occ ν ι)}

theorem map_eq_decl {o : Occ ν ι} {y : μ} {b : κ} :
    o.map f g = .decl y b ↔ ∃ x a, o = .decl x a ∧ f x = y ∧ g a = b := by
  constructor
  · intro h
    cases o with
    | decl x a =>
        cases h
        exact ⟨x, a, rfl, rfl, rfl⟩
    | _ => cases h
  · rintro ⟨x, a, rfl, rfl, rfl⟩
    rfl

theorem map_eq_use {o : Occ ν ι} {y : μ} {b : κ} :
    o.map f g = .use y b ↔ ∃ x a, o = .use x a ∧ f x = y ∧ g a = b := by
  constructor
  · intro h
    cases o with
    | use x a =>
        cases h
        exact ⟨x, a, rfl, rfl, rfl⟩
    | _ => cases h
  · rintro ⟨x, a, rfl, rfl, rfl⟩
    rfl

theorem enclosing_map : ∀ i : Nat,
    enclosing (text.map (Occ.map f g)) i = enclosing text i := by
  intro i
  induction i with
  | zero => rfl
  | succ i ih =>
      rw [enclosing, enclosing, List.getElem?_map, ih]
      cases text[i]? with
      | none => rfl
      | some o => cases o <;> rfl

/-- The text has the name. -/
def Occurs (text : List (Occ ν ι)) (x : ν) : Prop :=
  x ∈ text.filterMap Occ.name

theorem occurs_of_use {i : Nat} {x : ν} {a : ι}
    (h : text[i]? = some (.use x a)) : Occurs text x :=
  List.mem_filterMap.mpr ⟨_, List.mem_of_getElem? h, rfl⟩

theorem occurs_of_decl {i : Nat} {x : ν} {a : ι}
    (h : text[i]? = some (.decl x a)) : Occurs text x :=
  List.mem_filterMap.mpr ⟨_, List.mem_of_getElem? h, rfl⟩

/-- `f` keeps the names that are declared in the text apart from `x`. -/
def KeepsApart (f : ν → μ) (text : List (Occ ν ι)) (x : ν) : Prop :=
  ∀ (j : Nat) (y : ν) (a : ι), text[j]? = some (Occ.decl y a) →
    f y = f x → y = x

theorem declaredIn_map {i B j : Nat} {x : ν} (hf : KeepsApart f text x) :
    DeclaredIn (text.map (Occ.map f g)) i B (f x) j ↔
      DeclaredIn text i B x j := by
  constructor
  · intro ⟨hlt, ⟨b, hdecl⟩, hblock⟩
    rw [List.getElem?_map] at hdecl
    obtain ⟨o, ho, hmap⟩ := Option.map_eq_some_iff.mp hdecl
    obtain ⟨y, a, rfl, hy, -⟩ := map_eq_decl.mp hmap
    rw [enclosing_map] at hblock
    rw [hf j y a ho hy] at ho
    exact ⟨hlt, ⟨a, ho⟩, hblock⟩
  · intro ⟨hlt, ⟨a, hdecl⟩, hblock⟩
    refine ⟨hlt, ⟨g a, ?_⟩, ?_⟩
    · rw [List.getElem?_map, hdecl]
      rfl
    · rw [enclosing_map]
      exact hblock

theorem resolvesTo_map {i j : Nat} {x : ν} (hf : KeepsApart f text x) :
    ResolvesTo (text.map (Occ.map f g)) i (f x) j ↔ ResolvesTo text i x j := by
  simp only [ResolvesTo, enclosing_map, declaredIn_map hf]

theorem getElem?_map_decl {j : Nat} {x : ν} {a : ι} (hf : KeepsApart f text x)
    (hg : Function.Injective g)
    (h : (text.map (Occ.map f g))[j]? = some (.decl (f x) (g a))) :
    text[j]? = some (.decl x a) := by
  rw [List.getElem?_map] at h
  obtain ⟨o, ho, hmap⟩ := Option.map_eq_some_iff.mp h
  obtain ⟨y, b, rfl, hy, hb⟩ := map_eq_decl.mp hmap
  rw [ho, hf j y b ho hy, hg hb]

/-- A text is well scoped under any names that tell its own apart. -/
theorem WellScoped.map (h : WellScoped text)
    (hf : ∀ x, Occurs text x → KeepsApart f text x) :
    WellScoped (text.map (Occ.map f g)) where
  resolved i y b hi := by
    rw [List.getElem?_map] at hi
    obtain ⟨o, ho, hmap⟩ := Option.map_eq_some_iff.mp hi
    obtain ⟨x, a, rfl, rfl, rfl⟩ := map_eq_use.mp hmap
    obtain ⟨j, hj, hdecl⟩ := h.resolved i x a ho
    refine ⟨j, (resolvesTo_map (hf x (occurs_of_use ho))).mpr hj, ?_⟩
    rw [List.getElem?_map, hdecl]
    rfl
  once B y j j' hj hj' := by
    obtain ⟨b, hb⟩ := hj.decl
    rw [List.getElem?_map] at hb
    obtain ⟨o, ho, hmap⟩ := Option.map_eq_some_iff.mp hb
    obtain ⟨x, a, rfl, rfl, -⟩ := map_eq_decl.mp hmap
    have hx := hf x (occurs_of_decl ho)
    rw [List.length_map] at hj hj'
    exact h.once B x j j' ((declaredIn_map hx).mp hj)
      ((declaredIn_map hx).mp hj')

theorem WellScoped.of_map (h : WellScoped (text.map (Occ.map f g)))
    (hf : ∀ x, Occurs text x → KeepsApart f text x)
    (hg : Function.Injective g) : WellScoped text where
  resolved i x a hi := by
    have hx := hf x (occurs_of_use hi)
    obtain ⟨j, hj, hdecl⟩ := h.resolved i (f x) (g a) (by
      rw [List.getElem?_map, hi]
      rfl)
    exact ⟨j, (resolvesTo_map hx).mp hj, getElem?_map_decl hx hg hdecl⟩
  once B x j j' hj hj' := by
    obtain ⟨a, ha⟩ := hj.decl
    have hx := hf x (occurs_of_decl ha)
    refine h.once B (f x) j j' ?_ ?_
    · rw [List.length_map]
      exact (declaredIn_map hx).mpr hj
    · rw [List.length_map]
      exact (declaredIn_map hx).mpr hj'

end Map

/-! ## Distinct declarations -/

/-- No two declarations declare the same thing. -/
def Distinct (text : List (Occ ν ι)) : Prop :=
  ∀ (j j' : Nat) (x y : ν) (a : ι), text[j]? = some (Occ.decl x a) →
    text[j']? = some (Occ.decl y a) → j = j'

theorem distinct_map {μ κ : Type} {f : ν → μ} {g : ι → κ}
    {text : List (Occ ν ι)} (hg : Function.Injective g) :
    Distinct (text.map (Occ.map f g)) ↔ Distinct text := by
  constructor
  · intro h j j' x y a hj hj'
    refine h j j' (f x) (f y) (g a) ?_ ?_
    · rw [List.getElem?_map, hj]
      rfl
    · rw [List.getElem?_map, hj']
      rfl
  · intro h j j' x y a hj hj'
    rw [List.getElem?_map] at hj hj'
    obtain ⟨o, ho, hmap⟩ := Option.map_eq_some_iff.mp hj
    obtain ⟨o', ho', hmap'⟩ := Option.map_eq_some_iff.mp hj'
    obtain ⟨x', a', rfl, -, rfl⟩ := map_eq_decl.mp hmap
    obtain ⟨y', b', rfl, -, hb⟩ := map_eq_decl.mp hmap'
    rw [hg hb] at ho'
    exact h j j' x' y' a' ho ho'

theorem getElem?_snoc {text : List (Occ ν ι)} {o o' : Occ ν ι} {i : Nat} :
    (text ++ [o])[i]? = some o' ↔
      text[i]? = some o' ∨ (i = text.length ∧ o = o') := by
  rw [List.getElem?_append]
  split
  · next hlt => exact (or_iff_left fun h => Nat.ne_of_lt hlt h.1).symm
  · next hge =>
      rw [List.getElem?_eq_none_iff.mpr (Nat.le_of_not_lt hge),
        List.getElem?_singleton]
      have hiff : i - text.length = 0 ↔ i = text.length := by omega
      simp [hiff]

theorem Distinct.snoc {text : List (Occ ν ι)} (h : Distinct text)
    {o : Occ ν ι} (ho : ∀ x a, o = .decl x a → ∀ (j : Nat) (y : ν),
      text[j]? ≠ some (.decl y a)) : Distinct (text ++ [o]) := by
  intro j j' x y a hj hj'
  rcases getElem?_snoc.mp hj with hj | ⟨rfl, hx⟩
  · rcases getElem?_snoc.mp hj' with hj' | ⟨rfl, hy⟩
    · exact h j j' x y a hj hj'
    · exact absurd hj (ho y a hy j x)
  · rcases getElem?_snoc.mp hj' with hj' | ⟨rfl, -⟩
    · exact absurd hj' (ho x a hx j' y)
    · rfl

end LearningLinux.Lib.Scopes
