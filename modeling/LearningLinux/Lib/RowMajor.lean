import Mathlib.Algebra.BigOperators.Fin
import Mathlib.Order.CompletePartialOrder
import Mathlib.Order.Interval.Set.Basic
import Mathlib.Tactic.Ring

/-!
# Row-major addresses

An array with the dimensions `dims` and elements of `unit` bytes, the last
subscript running fastest. With fewer subscripts than dimensions the address
is that of a block, an array of the remaining dimensions. Blocks lie inside
the array, and those of different subscripts are apart: at the first
difference the smaller subscript ends before the larger one begins.
-/

namespace LearningLinux.Lib.RowMajor

variable {unit : Nat} {dims is js : List Nat}

def size (unit : Nat) (dims : List Nat) : Nat := dims.prod * unit

def address (unit : Nat) : List Nat → List Nat → Nat
  | _ :: dims, i :: is => i * size unit dims + address unit dims is
  | _, _ => 0

theorem address_nil (dims : List Nat) : address unit dims [] = 0 := by
  cases dims <;> rfl

theorem address_cons (d i : Nat) (dims is : List Nat) :
    address unit (d :: dims) (i :: is) =
      i * size unit dims + address unit dims is := rfl

/-- No more subscripts than dimensions, each below its dimension. -/
def Within : List Nat → List Nat → Prop
  | _, [] => True
  | [], _ :: _ => False
  | d :: dims, i :: is => i < d ∧ Within dims is

instance decidableWithin : ∀ dims is : List Nat, Decidable (Within dims is)
  | [], [] => isTrue trivial
  | _ :: _, [] => isTrue trivial
  | [], _ :: _ => inferInstanceAs (Decidable False)
  | _ :: dims, _ :: is =>
      have := decidableWithin dims is
      inferInstanceAs (Decidable (_ ∧ _))

theorem Within.length_le (h : Within dims is) : is.length ≤ dims.length := by
  induction is generalizing dims with
  | nil => exact Nat.zero_le _
  | cons i is ih =>
      cases dims with
      | nil => cases h
      | cons d dims => exact Nat.succ_le_succ (ih h.2)

theorem size_cons (d : Nat) (dims : List Nat) :
    size unit (d :: dims) = d * size unit dims := by
  rw [size, size, List.prod_cons, Nat.mul_assoc]

/-- A block ends before the next one begins, or with the row. -/
theorem succ_mul_le {i d s : Nat} (h : i < d) : i * s + s ≤ d * s :=
  calc
    i * s + s = (i + 1) * s := by ring
    _ ≤ d * s := Nat.mul_le_mul_right s h

theorem Within.address_add_le (unit : Nat) (h : Within dims is) :
    address unit dims is + size unit (dims.drop is.length) ≤
      size unit dims := by
  induction is generalizing dims with
  | nil => simp [address_nil]
  | cons i is ih =>
      cases dims with
      | nil => cases h
      | cons d dims =>
          have hblock := ih h.2
          have hrow := succ_mul_le (s := size unit dims) h.1
          rw [address_cons, size_cons, List.length_cons, List.drop_succ_cons]
          omega

/-- The bytes that some subscripts address. -/
def block (unit : Nat) (dims is : List Nat) : Set Nat :=
  Set.Ico (address unit dims is)
    (address unit dims is + size unit (dims.drop is.length))

/-- The blocks of one row, at their distance from its start. -/
theorem mem_block_cons {d i x : Nat} :
    x ∈ block unit (d :: dims) (i :: is) ↔
      i * size unit dims ≤ x ∧ x - i * size unit dims ∈ block unit dims is := by
  rw [block, block, Set.mem_Ico, Set.mem_Ico, address_cons, List.length_cons,
    List.drop_succ_cons]
  omega

/-- With a smaller first subscript a block ends earlier. -/
theorem block_end_le (unit : Nat) {d i j : Nat} (js : List Nat)
    (hi : Within dims is) (hij : i < j) :
    address unit (d :: dims) (i :: is) +
        size unit ((d :: dims).drop (i :: is).length) ≤
      address unit (d :: dims) (j :: js) := by
  have hblock := hi.address_add_le unit
  have hrow := succ_mul_le (s := size unit dims) hij
  rw [address_cons, address_cons, List.length_cons, List.drop_succ_cons]
  omega

theorem disjoint_block (hi : Within dims is) (hj : Within dims js)
    (hlength : is.length = js.length) (hne : is ≠ js) :
    Disjoint (block unit dims is) (block unit dims js) := by
  induction is generalizing dims js with
  | nil => exact absurd (List.length_eq_zero_iff.mp hlength.symm).symm hne
  | cons i is ih =>
      match dims, js, hi, hj, hlength with
      | d :: dims, j :: js, hi, hj, hlength =>
          rw [Set.disjoint_left]
          intro x hx hx'
          rcases Nat.lt_trichotomy i j with hlt | rfl | hlt
          · have hend := block_end_le unit (d := d) js hi.2 hlt
            exact Nat.not_lt.mpr hx'.1 (Nat.lt_of_lt_of_le hx.2 hend)
          · have hne' : is ≠ js := fun heq => hne (heq ▸ rfl)
            have hrest := ih hi.2 hj.2 (Nat.succ.inj hlength) hne'
            exact Set.disjoint_left.mp hrest (mem_block_cons.mp hx).2
              (mem_block_cons.mp hx').2
          · have hend := block_end_le unit (d := d) is hj.2 hlt
            exact Nat.not_lt.mpr hx.1 (Nat.lt_of_lt_of_le hx'.2 hend)

/-- Each subscript counts blocks of the size that is left behind it. -/
theorem Within.address_eq_sum (h : Within dims is) :
    address unit dims is =
      ∑ j : Fin is.length, is.get j * size unit (dims.drop (j + 1)) := by
  induction is generalizing dims with
  | nil => exact address_nil dims
  | cons i is ih =>
      cases dims with
      | nil => cases h
      | cons d dims =>
          rw [address_cons, ih h.2]
          simp [Fin.sum_univ_succ]

end LearningLinux.Lib.RowMajor
