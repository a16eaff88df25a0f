import Mathlib.Data.Nat.Sqrt
import Mathlib.Data.List.Lex
import Mathlib.Data.List.Range
import Mathlib.Tactic.Ring
import Mathlib.Tactic.Linarith

/-!
# The sums of four squares

The two searches of `four_square_sum`. A loop over a `range` runs its body with
the list of results it has so far; a body that raises an exception ends the
search, and `none` stands for that. The square root is taken of a float, so
what `int(math.sqrt(x))` gives is a parameter; of a negative number it raises
`ValueError`.

Each loop adds to the results what its rounds add, in order, so a search that
raises no exception is a `flatMap` over ranges. The longer ranges of the brute
force only have rounds at their ends that add nothing.
-/

namespace LearningLinux.FourSquare

/-- `for i in range(stop)`, with the results so far. -/
def forRange {β : Type} (stop : Nat) (results : β)
    (body : β → Nat → Option β) : Option β :=
  (List.range stop).foldlM body results

/-- `int(math.sqrt(x))` -/
def intSqrt (sqrt : Nat → Nat) (x : Int) : Option Nat :=
  if x < 0 then none else some (sqrt x.toNat)

/-- `if (a**2 + b**2 + c**2 + d**2) == test_num: results.append([a, b, c, d])`
-/
def check (test_num a b c : Nat) (results : List (List Nat)) (d : Nat) :
    Option (List (List Nat)) :=
  if (a : Int) ^ 2 + b ^ 2 + c ^ 2 + d ^ 2 = test_num then
    some (results ++ [[a, b, c, d]])
  else some results

namespace Better

/-- `better_solution.get_four_square_num` -/
def getFourSquareNum (sqrt : Nat → Nat) (test_num : Nat) :
    Option (List (List Nat)) := do
  let stop ← intSqrt sqrt test_num
  forRange (stop + 1) [] fun results a => do
    let stop ← intSqrt sqrt (test_num - a ^ 2)
    forRange (min a stop + 1) results fun results b => do
      let stop ← intSqrt sqrt (test_num - a ^ 2 - b ^ 2)
      forRange (min b stop + 1) results fun results c => do
        let stop ← intSqrt sqrt (test_num - a ^ 2 - b ^ 2 - c ^ 2)
        forRange (min c stop + 1) results (check test_num a b c)

end Better

namespace Violent

/-- `violent_solution.get_four_square_num` -/
def getFourSquareNum (sqrt : Nat → Nat) (test_num : Nat) :
    Option (List (List Nat)) := do
  let stop ← intSqrt sqrt test_num
  forRange (stop + 1) [] fun results a =>
    forRange (a + 1) results fun results b =>
      forRange (b + 1) results fun results c =>
        forRange (c + 1) results (check test_num a b c)

end Violent

/-! ## Loops as lists -/

/-- A loop each of whose rounds appends its own results. -/
theorem forRange_append {α : Type} {stop : Nat} {results : List α}
    {body : List α → Nat → Option (List α)} {f : Nat → List α}
    (h : ∀ i < stop, ∀ acc, body acc i = some (acc ++ f i)) :
    forRange stop results body =
      some (results ++ (List.range stop).flatMap f) := by
  induction stop with
  | zero => simp [forRange]
  | succ stop ih =>
      have hbefore := ih fun i hi => h i (Nat.lt_succ_of_lt hi)
      rw [forRange] at hbefore ⊢
      rw [List.range_succ, List.foldlM_append, hbefore]
      simp [h stop (Nat.lt_succ_self stop)]

/-- Rounds at the end that add nothing may be left out. -/
theorem flatMap_range_cut {α : Type} {k m : Nat} {f : Nat → List α}
    (hkm : k ≤ m) (h : ∀ i, k ≤ i → i < m → f i = []) :
    (List.range m).flatMap f = (List.range k).flatMap f := by
  induction m with
  | zero => rw [Nat.le_zero.mp hkm]
  | succ m ih =>
      rcases Nat.lt_or_eq_of_le hkm with hlt | rfl
      · have hkm' : k ≤ m := Nat.le_of_lt_succ hlt
        rw [List.range_succ, List.flatMap_append,
          ih hkm' fun i hi hlt => h i hi (Nat.lt_succ_of_lt hlt)]
        simp [h m hkm' (Nat.lt_succ_self m)]
      · rfl

/-! ## What each loop adds -/

variable {n a b c d : Nat}

def quadAt (n a b c d : Nat) : List (List Nat) :=
  if a ^ 2 + b ^ 2 + c ^ 2 + d ^ 2 = n then [[a, b, c, d]] else []

def quadsC (n a b c : Nat) : List (List Nat) :=
  (List.range (c + 1)).flatMap (quadAt n a b c)

def quadsB (n a b : Nat) : List (List Nat) :=
  (List.range (b + 1)).flatMap (quadsC n a b)

def quadsA (n a : Nat) : List (List Nat) :=
  (List.range (a + 1)).flatMap (quadsB n a)

/-- All of them. -/
def quads (n : Nat) : List (List Nat) :=
  (List.range (n.sqrt + 1)).flatMap (quadsA n)

theorem check_eq (results : List (List Nat)) :
    check n a b c results d = some (results ++ quadAt n a b c d) := by
  have hcast : (a : Int) ^ 2 + b ^ 2 + c ^ 2 + d ^ 2 = n ↔
      a ^ 2 + b ^ 2 + c ^ 2 + d ^ 2 = n := by norm_cast
  rw [check, quadAt]
  by_cases h : a ^ 2 + b ^ 2 + c ^ 2 + d ^ 2 = n
  · rw [if_pos (hcast.mpr h), if_pos h]
  · rw [if_neg (mt hcast.mp h), if_neg h, List.append_nil]

theorem quadAt_eq_nil (h : n < a ^ 2 + b ^ 2 + c ^ 2 + d ^ 2) :
    quadAt n a b c d = [] := if_neg (ne_of_gt h)

theorem quadsC_eq_nil (h : n < a ^ 2 + b ^ 2 + c ^ 2) : quadsC n a b c = [] :=
  List.flatMap_eq_nil_iff.mpr fun _ _ =>
    quadAt_eq_nil (lt_of_lt_of_le h (Nat.le_add_right _ _))

theorem quadsB_eq_nil (h : n < a ^ 2 + b ^ 2) : quadsB n a b = [] :=
  List.flatMap_eq_nil_iff.mpr fun _ _ =>
    quadsC_eq_nil (lt_of_lt_of_le h (Nat.le_add_right _ _))

/-! ## The pruned search -/

/-- A bound by the integer square root of what is left cuts nothing off. -/
theorem flatMap_min {α : Type} {s r m : Nat} {f : Nat → List α}
    (hr : s + r = n) (h : ∀ i, n < s + i ^ 2 → f i = []) :
    (List.range (min m r.sqrt + 1)).flatMap f =
      (List.range (m + 1)).flatMap f := by
  symm
  refine flatMap_range_cut (by omega) fun i hi him => h i ?_
  have hsqrt : r.sqrt < i := by omega
  have hlt : r < i ^ 2 := Nat.sqrt_lt'.mp hsqrt
  omega

variable {sqrt : Nat → Nat}

/-- The root of what is left of `n` is taken of a number that is not negative.
-/
theorem intSqrt_rest {s r : Nat} (hs : s + r = n) (hsqrt : sqrt r = r.sqrt)
    {x : Int} (hx : x = n - s) : intSqrt sqrt x = some r.sqrt := by
  have hr : x = (r : Int) := by
    rw [hx, ← hs]
    push_cast
    ring
  rw [intSqrt, hr, if_neg (by omega), Int.toNat_natCast, hsqrt]

/-- A round's index is at most the root of what was left, and so leaves
something. -/
theorem exists_rest {s r i m : Nat} (hs : s + r = n)
    (hi : i < min m r.sqrt + 1) : ∃ r', s + i ^ 2 + r' = n := by
  have hle : i ≤ r.sqrt := by omega
  have hsq : i ^ 2 ≤ r := Nat.le_sqrt'.mp hle
  exact ⟨r - i ^ 2, by omega⟩

/-- The roots that are taken are the right ones. -/
def Exact (sqrt : Nat → Nat) (n : Nat) : Prop :=
  ∀ a b c x, a ^ 2 + b ^ 2 + c ^ 2 + x = n → sqrt x = x.sqrt

theorem Exact.zero (h : Exact sqrt n) : sqrt n = n.sqrt :=
  h 0 0 0 n (by simp)

theorem Exact.one {r : Nat} (h : Exact sqrt n) (hr : a ^ 2 + r = n) :
    sqrt r = r.sqrt := h a 0 0 r (by simpa using hr)

theorem Exact.two {r : Nat} (h : Exact sqrt n) (hr : a ^ 2 + b ^ 2 + r = n) :
    sqrt r = r.sqrt := h a b 0 r (by simpa using hr)

theorem better_eq (hsqrt : Exact sqrt n) :
    Better.getFourSquareNum sqrt n = some (quads n) := by
  have hn : intSqrt sqrt n = some n.sqrt :=
    intSqrt_rest (s := 0) (zero_add n) hsqrt.zero (by simp)
  rw [Better.getFourSquareNum, hn]
  refine forRange_append (f := quadsA n) fun a ha acc => ?_
  obtain ⟨r, hr⟩ := exists_rest (m := n.sqrt) (zero_add n) (by simpa using ha)
  rw [zero_add] at hr
  have h₁ : intSqrt sqrt (n - (a : Int) ^ 2) = some r.sqrt :=
    intSqrt_rest hr (hsqrt.one hr) (by push_cast; ring)
  rw [h₁, Option.bind_eq_bind, Option.bind_some, quadsA,
    ← flatMap_min hr fun b => quadsB_eq_nil]
  refine forRange_append fun b hb acc => ?_
  obtain ⟨r, hr⟩ := exists_rest hr hb
  have h₂ : intSqrt sqrt (n - (a : Int) ^ 2 - b ^ 2) = some r.sqrt :=
    intSqrt_rest hr (hsqrt.two hr) (by push_cast; ring)
  rw [h₂, Option.bind_some, quadsB,
    ← flatMap_min hr fun c => quadsC_eq_nil]
  refine forRange_append fun c hc acc => ?_
  obtain ⟨r, hr⟩ := exists_rest hr hc
  have h₃ : intSqrt sqrt (n - (a : Int) ^ 2 - b ^ 2 - c ^ 2) = some r.sqrt :=
    intSqrt_rest hr (hsqrt a b c r hr) (by push_cast; ring)
  rw [h₃, Option.bind_some, quadsC,
    ← flatMap_min hr fun d => quadAt_eq_nil]
  exact forRange_append fun d _ acc => check_eq acc

theorem violent_eq (hsqrt : Exact sqrt n) :
    Violent.getFourSquareNum sqrt n = some (quads n) := by
  have hn : intSqrt sqrt n = some n.sqrt :=
    intSqrt_rest (s := 0) (zero_add n) hsqrt.zero (by simp)
  rw [Violent.getFourSquareNum, hn]
  refine forRange_append (f := quadsA n) fun a _ acc => ?_
  refine forRange_append (f := quadsB n a) fun b _ acc => ?_
  refine forRange_append (f := quadsC n a b) fun c _ acc => ?_
  exact forRange_append fun d _ acc => check_eq acc

/-! ## The list -/

theorem mem_quadAt {q : List Nat} : q ∈ quadAt n a b c d ↔
    a ^ 2 + b ^ 2 + c ^ 2 + d ^ 2 = n ∧ q = [a, b, c, d] := by
  rw [quadAt]
  split <;> simp [*]

theorem mem_quads {q : List Nat} : q ∈ quads n ↔
    ∃ a b c d, q = [a, b, c, d] ∧ b ≤ a ∧ c ≤ b ∧ d ≤ c ∧
      a ^ 2 + b ^ 2 + c ^ 2 + d ^ 2 = n := by
  simp only [quads, quadsA, quadsB, quadsC, List.mem_flatMap, List.mem_range,
    mem_quadAt, Nat.lt_succ_iff]
  constructor
  · intro ⟨a, _, b, hb, c, hc, d, hd, hsum, hq⟩
    exact ⟨a, b, c, d, hq, hb, hc, hd, hsum⟩
  · intro ⟨a, b, c, d, hq, hb, hc, hd, hsum⟩
    have ha : a ≤ n.sqrt := Nat.le_sqrt'.mpr (by omega)
    exact ⟨a, ha, b, hb, c, hc, d, hd, hsum, hq⟩

/-- What is found for a smaller index comes before what is found for a greater
one. -/
theorem pairwise_flatMap_range {m : Nat} {f : Nat → List (List Nat)}
    {p : List Nat} (hone : ∀ i, (f i).Pairwise (· < ·))
    (hstart : ∀ i, ∀ q ∈ f i, ∃ l, q = p ++ i :: l) :
    ((List.range m).flatMap f).Pairwise (· < ·) := by
  refine List.pairwise_flatMap.mpr ⟨fun i _ => hone i, ?_⟩
  refine List.Pairwise.imp (fun {i j} hij q hq q' hq' => ?_)
    List.pairwise_lt_range
  obtain ⟨l, rfl⟩ := hstart i q hq
  obtain ⟨l', rfl⟩ := hstart j q' hq'
  exact List.append_left_lt (List.cons_lt_cons_iff.mpr (Or.inl hij))

theorem quads_sorted (n : Nat) : (quads n).Pairwise (· < ·) := by
  refine pairwise_flatMap_range (p := []) (fun a => ?_) fun a q hq => ?_
  · refine pairwise_flatMap_range (p := [a]) (fun b => ?_) fun b q hq => ?_
    · refine pairwise_flatMap_range (p := [a, b]) (fun c => ?_) ?_
      · refine pairwise_flatMap_range (p := [a, b, c]) (fun d => ?_) ?_
        · rw [quadAt]
          split <;> simp
        · intro d q hq
          exact ⟨[], (mem_quadAt.mp hq).2⟩
      · intro c q hq
        simp only [quadsC, List.mem_flatMap, mem_quadAt] at hq
        obtain ⟨d, -, -, rfl⟩ := hq
        exact ⟨[d], rfl⟩
    · simp only [quadsB, quadsC, List.mem_flatMap, mem_quadAt] at hq
      obtain ⟨c, -, d, -, -, rfl⟩ := hq
      exact ⟨[c, d], rfl⟩
  · simp only [quadsA, quadsB, quadsC, List.mem_flatMap, mem_quadAt] at hq
    obtain ⟨b, -, c, -, d, -, -, rfl⟩ := hq
    exact ⟨[b, c, d], rfl⟩

/-- Both searches find every sum of four squares once and in order, and neither
takes the root of a negative number. -/
theorem searches_agree (hsqrt : Exact sqrt n) :
    ∃ results, Better.getFourSquareNum sqrt n = some results ∧
      Violent.getFourSquareNum sqrt n = some results ∧
      results.Pairwise (· < ·) ∧
      ∀ q, q ∈ results ↔ ∃ a b c d, q = [a, b, c, d] ∧ b ≤ a ∧ c ≤ b ∧
        d ≤ c ∧ a ^ 2 + b ^ 2 + c ^ 2 + d ^ 2 = n :=
  ⟨quads n, better_eq hsqrt, violent_eq hsqrt, quads_sorted n,
    fun _ => mem_quads⟩

theorem searches_agree_seven :
    Exact Nat.sqrt 7 ∧ ∃ results,
      Better.getFourSquareNum Nat.sqrt 7 = some results ∧
      Violent.getFourSquareNum Nat.sqrt 7 = some results ∧
      results.Pairwise (· < ·) ∧
      ∀ q, q ∈ results ↔ ∃ a b c d, q = [a, b, c, d] ∧ b ≤ a ∧ c ≤ b ∧
        d ≤ c ∧ a ^ 2 + b ^ 2 + c ^ 2 + d ^ 2 = 7 :=
  have hexact : Exact Nat.sqrt 7 := fun _ _ _ _ _ => rfl
  ⟨hexact, searches_agree hexact⟩

end LearningLinux.FourSquare
