import Mathlib.Data.BitVec
import Mathlib.Tactic.IntervalCases

/-!
# Segment descriptors

The layout of the eight bytes of a descriptor, as the processor reads them,
and of a selector. The base, the limit and the attributes are scattered over
the two double words; `pack` puts them together, and a field of what is packed
is what was put in.
-/

namespace LearningLinux.Lib

/-- The two double words of a descriptor. -/
@[ext]
structure SegDescriptor where
  low : BitVec 32
  high : BitVec 32
deriving DecidableEq, Repr

namespace SegDescriptor

def base (d : SegDescriptor) : BitVec 32 :=
  (d.high &&& 0xFF000000#32) ||| ((d.high &&& 0xFF#32) <<< 16) |||
    (d.low >>> 16)

/-- In units of the granularity. -/
def limit (d : SegDescriptor) : BitVec 32 :=
  (d.high &&& 0xF0000#32) ||| (d.low &&& 0xFFFF#32)

/-- The type, S, DPL and P, and from bit 12 on AVL, L, D and G. -/
def attributes (d : SegDescriptor) : BitVec 16 :=
  ((d.high >>> 8) &&& 0xF0FF#32).setWidth 16

def dpl (d : SegDescriptor) : Nat := (d.high >>> 13 &&& 3#32).toNat

def pack (base limit : BitVec 32) (attr : BitVec 16) : SegDescriptor where
  low := (base <<< 16) ||| (limit &&& 0xFFFF#32)
  high := (base &&& 0xFF000000#32) ||| (limit &&& 0xF0000#32) |||
    (attr.setWidth 32 &&& 0xF0FF#32) <<< 8 ||| (base >>> 16 &&& 0xFF#32)

variable (b l : BitVec 32) (attr : BitVec 16)

theorem base_pack : (pack b l attr).base = b := by
  apply BitVec.eq_of_getLsbD_eq
  intro i hi
  interval_cases i <;> simp [base, pack]

theorem limit_pack : (pack b l attr).limit = l &&& 0xFFFFF#32 := by
  apply BitVec.eq_of_getLsbD_eq
  intro i hi
  interval_cases i <;> simp [limit, pack]

theorem attributes_pack :
    (pack b l attr).attributes = attr &&& 0xF0FF#16 := by
  apply BitVec.eq_of_getLsbD_eq
  intro i hi
  interval_cases i <;> simp [attributes, pack]

theorem dpl_pack : (pack b l attr).dpl = (attr >>> 5 &&& 3#16).toNat := by
  have hdpl : (pack b l attr).high >>> 13 &&& 3#32 =
      (attr >>> 5 &&& 3#16).setWidth 32 := by
    apply BitVec.eq_of_getLsbD_eq
    intro i hi
    interval_cases i <;> simp [pack]
  rw [dpl, hdpl, BitVec.toNat_setWidth]
  exact Nat.mod_eq_of_lt (Nat.lt_trans (BitVec.isLt _) (by decide))

/-! ## Bytes -/

/-- Little endian. -/
def dword (b₀ b₁ b₂ b₃ : BitVec 8) : BitVec 32 :=
  b₀.setWidth 32 ||| b₁.setWidth 32 <<< 8 ||| b₂.setWidth 32 <<< 16 |||
    b₃.setWidth 32 <<< 24

def ofBytes : List (BitVec 8) → Option SegDescriptor
  | [b₀, b₁, b₂, b₃, b₄, b₅, b₆, b₇] =>
      some ⟨dword b₀ b₁ b₂ b₃, dword b₄ b₅ b₆ b₇⟩
  | _ => none

end SegDescriptor

/-! ## Selectors -/

/-- A selector: the index of a descriptor, the table and the level. -/
structure Selector where
  index : Nat
  local_table : Bool
  rpl : Nat
deriving DecidableEq, Repr

def Selector.ofNat (sel : Nat) : Selector :=
  ⟨sel / 8, sel / 4 % 2 = 1, sel % 4⟩

end LearningLinux.Lib
