import Mathlib.Algebra.Group.Nat.Defs
import Mathlib.Logic.Function.Basic

/-!
# A byte-addressed memory with little-endian words

A memory is a function from addresses to bytes. `load32` and `store32` read
and write the four bytes at an address, lowest first, whatever its
alignment; two words either are the same four bytes, or may overlap, or are
apart, and the three lemmas below are what a proof about stores ever needs:
a load sees the store at its own address, and sees through one that is
apart.
-/

namespace LearningLinux.Lib

structure ByteMem where
  byte : Nat → UInt8

namespace ByteMem

variable {m m' : ByteMem} {a b v : Nat}

def load32 (m : ByteMem) (a : Nat) : Nat :=
  (m.byte a).toNat + 2 ^ 8 * (m.byte (a + 1)).toNat +
    2 ^ 16 * (m.byte (a + 2)).toNat + 2 ^ 24 * (m.byte (a + 3)).toNat

def store8 (m : ByteMem) (a v : Nat) : ByteMem :=
  ⟨fun b => if b = a then UInt8.ofNat v else m.byte b⟩

def store32 (m : ByteMem) (a v : Nat) : ByteMem :=
  (((m.store8 a v).store8 (a + 1) (v / 2 ^ 8)).store8 (a + 2)
    (v / 2 ^ 16)).store8 (a + 3) (v / 2 ^ 24)

/-- A store changes its own four bytes only. -/
theorem store32_apart (h : b < a ∨ a + 4 ≤ b) : (m.store32 a v).byte b = m.byte b := by
  have h₀ : b ≠ a := by omega
  have h₁ : b ≠ a + 1 := by omega
  have h₂ : b ≠ a + 2 := by omega
  have h₃ : b ≠ a + 3 := by omega
  simp only [store32, store8, h₀, h₁, h₂, h₃, if_false]

theorem load32_congr (h : ∀ i, a ≤ i → i < a + 4 → m'.byte i = m.byte i) :
    m'.load32 a = m.load32 a := by
  rw [load32, load32, h a (by omega) (by omega), h (a + 1) (by omega) (by omega),
    h (a + 2) (by omega) (by omega), h (a + 3) (by omega) (by omega)]

theorem load32_store32_apart (h : b + 4 ≤ a ∨ a + 4 ≤ b) :
    (m.store32 a v).load32 b = m.load32 b :=
  load32_congr fun _ _ _ => store32_apart (by omega)

theorem load32_lt (m : ByteMem) (a : Nat) : m.load32 a < 2 ^ 32 := by
  have h₀ := (m.byte a).toNat_lt
  have h₁ := (m.byte (a + 1)).toNat_lt
  have h₂ := (m.byte (a + 2)).toNat_lt
  have h₃ := (m.byte (a + 3)).toNat_lt
  rw [load32]
  omega

theorem load32_store32_mod : (m.store32 a v).load32 a = v % 2 ^ 32 := by
  have h₀ : (m.store32 a v).byte a = UInt8.ofNat v := by
    simp [store32, store8]
  have h₁ : (m.store32 a v).byte (a + 1) = UInt8.ofNat (v / 2 ^ 8) := by
    simp [store32, store8]
  have h₂ : (m.store32 a v).byte (a + 2) = UInt8.ofNat (v / 2 ^ 16) := by
    simp [store32, store8]
  have h₃ : (m.store32 a v).byte (a + 3) = UInt8.ofNat (v / 2 ^ 24) := by
    simp [store32, store8]
  rw [load32, h₀, h₁, h₂, h₃]
  simp only [UInt8.toNat_ofNat']
  omega

theorem load32_store32_same (h : v < 2 ^ 32) :
    (m.store32 a v).load32 a = v := by
  rw [load32_store32_mod, Nat.mod_eq_of_lt h]

/-! ## Bytes, half words and blocks -/

def load8 (m : ByteMem) (a : Nat) : Nat := (m.byte a).toNat

def load16 (m : ByteMem) (a : Nat) : Nat := m.load8 a + 2 ^ 8 * m.load8 (a + 1)

def store16 (m : ByteMem) (a v : Nat) : ByteMem :=
  (m.store8 a v).store8 (a + 1) (v / 2 ^ 8)

/-- `count` bytes from `a` on are replaced. -/
def write (m : ByteMem) (a count : Nat) (data : Nat → UInt8) : ByteMem :=
  ⟨fun b => if a ≤ b ∧ b < a + count then data (b - a) else m.byte b⟩

variable {count : Nat} {data : Nat → UInt8}

theorem store8_apart (h : b ≠ a) : (m.store8 a v).byte b = m.byte b :=
  if_neg h

theorem store16_apart (h : b < a ∨ a + 2 ≤ b) :
    (m.store16 a v).byte b = m.byte b := by
  rw [store16, store8_apart (by omega), store8_apart (by omega)]

theorem write_inside {i : Nat} (h : i < count) :
    (m.write a count data).byte (a + i) = data i := by
  have hin : a ≤ a + i ∧ a + i < a + count := by omega
  refine (if_pos hin).trans ?_
  rw [Nat.add_sub_cancel_left]

theorem write_outside (h : b < a ∨ a + count ≤ b) :
    (m.write a count data).byte b = m.byte b :=
  if_neg (by omega)

/-! ## What stays and what is there -/

/-- The two memories differ in `P` only. -/
def Outside (P : Nat → Prop) (m m' : ByteMem) : Prop :=
  ∀ b, ¬ P b → m'.byte b = m.byte b

variable {P Q : Nat → Prop} {m'' : ByteMem}

theorem Outside.refl (P : Nat → Prop) (m : ByteMem) : Outside P m m :=
  fun _ _ => rfl

theorem Outside.trans (h : Outside P m m') (h' : Outside P m' m'') :
    Outside P m m'' :=
  fun b hb => (h' b hb).trans (h b hb)

theorem Outside.mono (h : Outside P m m') (hPQ : ∀ b, P b → Q b) :
    Outside Q m m' :=
  fun b hb => h b fun hP => hb (hPQ b hP)

theorem outside_store8 (h : P a) (m : ByteMem) (v : Nat) :
    Outside P m (m.store8 a v) := by
  intro b hb
  refine store8_apart ?_
  intro heq
  exact hb (heq ▸ h)

theorem outside_store16 (h : ∀ b, a ≤ b → b < a + 2 → P b) (m : ByteMem)
    (v : Nat) : Outside P m (m.store16 a v) := by
  intro b hb
  by_cases hin : a ≤ b ∧ b < a + 2
  · exact absurd (h b hin.1 hin.2) hb
  · exact store16_apart (by omega)

theorem outside_store32 (h : ∀ b, a ≤ b → b < a + 4 → P b) (m : ByteMem)
    (v : Nat) : Outside P m (m.store32 a v) := by
  intro b hb
  by_cases hin : a ≤ b ∧ b < a + 4
  · exact absurd (h b hin.1 hin.2) hb
  · exact store32_apart (by omega)

theorem outside_write (h : ∀ b, a ≤ b → b < a + count → P b) (m : ByteMem)
    (data : Nat → UInt8) : Outside P m (m.write a count data) := by
  intro b hb
  by_cases hin : a ≤ b ∧ b < a + count
  · exact absurd (h b hin.1 hin.2) hb
  · exact write_outside (by omega)

/-- The bytes from `a` on. -/
def Holds (m : ByteMem) (a : Nat) (bytes : List UInt8) : Prop :=
  ∀ i (h : i < bytes.length), m.byte (a + i) = bytes[i]

theorem holds_append {bytes bytes' : List UInt8} :
    m.Holds a (bytes ++ bytes') ↔
      m.Holds a bytes ∧ m.Holds (a + bytes.length) bytes' := by
  constructor
  · intro h
    refine ⟨fun i hi => ?_, fun i hi => ?_⟩
    · rw [h i (by rw [List.length_append]; omega), List.getElem_append_left hi]
    · rw [Nat.add_assoc, h _ (by rw [List.length_append]; omega),
        List.getElem_append_right (Nat.le_add_right ..)]
      simp only [Nat.add_sub_cancel_left]
  · intro ⟨h, h'⟩ i hi
    by_cases hlt : i < bytes.length
    · rw [h i hlt, List.getElem_append_left hlt]
    · rw [List.length_append] at hi
      obtain ⟨j, rfl⟩ := Nat.exists_eq_add_of_le (Nat.le_of_not_lt hlt)
      rw [← Nat.add_assoc, h' j (by omega),
        List.getElem_append_right (Nat.le_add_right ..)]
      simp only [Nat.add_sub_cancel_left]

theorem Holds.outside {bytes : List UInt8} (h : m.Holds a bytes)
    (hout : Outside P m m')
    (hP : ∀ b, a ≤ b → b < a + bytes.length → ¬ P b) : m'.Holds a bytes := by
  intro i hi
  rw [hout (a + i) (hP _ (by omega) (by omega)), h i hi]

theorem Outside.load8 (h : Outside P m m') (ha : ¬ P a) :
    m'.load8 a = m.load8 a := by
  rw [ByteMem.load8, ByteMem.load8, h a ha]

theorem Outside.load16 (h : Outside P m m') (ha : ¬ P a) (ha' : ¬ P (a + 1)) :
    m'.load16 a = m.load16 a := by
  rw [ByteMem.load16, ByteMem.load16, h.load8 ha, h.load8 ha']

theorem load8_congr (h : m'.byte a = m.byte a) : m'.load8 a = m.load8 a := by
  rw [load8, load8, h]

theorem load16_congr (h : m'.byte a = m.byte a)
    (h' : m'.byte (a + 1) = m.byte (a + 1)) : m'.load16 a = m.load16 a := by
  rw [load16, load16, load8_congr h, load8_congr h']

theorem load8_lt (m : ByteMem) (a : Nat) : m.load8 a < 2 ^ 8 :=
  (m.byte a).toNat_lt

theorem load16_lt (m : ByteMem) (a : Nat) : m.load16 a < 2 ^ 16 := by
  have hlow := m.load8_lt a
  have hhigh := m.load8_lt (a + 1)
  rw [load16]
  omega

theorem load8_store8_same : (m.store8 a v).load8 a = v % 2 ^ 8 := by
  have hbyte : (m.store8 a v).byte a = UInt8.ofNat v := if_pos rfl
  rw [load8, hbyte, UInt8.toNat_ofNat']

theorem load16_store16_same : (m.store16 a v).load16 a = v % 2 ^ 16 := by
  have hhigh : (m.store16 a v).load8 (a + 1) = v / 2 ^ 8 % 2 ^ 8 :=
    load8_store8_same
  have hlow : (m.store16 a v).load8 a = v % 2 ^ 8 := by
    rw [store16, load8_congr (store8_apart (by omega)), load8_store8_same]
  rw [load16, hlow, hhigh]
  omega

theorem Outside.load32 (h : Outside P m m')
    (ha : ∀ b, a ≤ b → b < a + 4 → ¬ P b) : m'.load32 a = m.load32 a :=
  load32_congr fun b hle hlt => h b (ha b hle hlt)

theorem load16_store16_apart (h : b + 2 ≤ a ∨ a + 2 ≤ b) :
    (m.store16 a v).load16 b = m.load16 b :=
  load16_congr (store16_apart (by omega)) (store16_apart (by omega))

theorem load16_store32_apart (h : b + 2 ≤ a ∨ a + 4 ≤ b) :
    (m.store32 a v).load16 b = m.load16 b :=
  load16_congr (store32_apart (by omega)) (store32_apart (by omega))

theorem load32_store16_apart (h : b + 4 ≤ a ∨ a + 2 ≤ b) :
    (m.store16 a v).load32 b = m.load32 b :=
  load32_congr fun _ _ _ => store16_apart (by omega)

end ByteMem

end LearningLinux.Lib
