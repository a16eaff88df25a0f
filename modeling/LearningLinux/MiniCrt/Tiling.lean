import LearningLinux.MiniCrt.Heap
import Mathlib.Algebra.GroupWithZero.Nat
import Mathlib.Algebra.Order.BigOperators.Group.List

/-!
# Blocks that tile a stretch of memory

`Tiles m n a bs` says that from address `a` on the memory holds the headers
of the blocks `bs`, each one right behind the block before it: every header
has its block's size and type, and its `next` is the header behind it, `n`
for the last one. The backward links are not part of it. They are what the
code lets go stale, and neither the walk of `malloc` nor the ranges of the
blocks depend on them.

Every operation replaces a few neighbouring blocks by others that cover the
same bytes. `Tiles.splice` does that once and for all; it lets the `prev`
field of the block behind them change too.
-/

namespace LearningLinux.MiniCrt

open Lib

structure Blk where
  size : Nat
  used : Bool
  deriving DecidableEq, Repr

def Blk.code (b : Blk) : Nat :=
  if b.used then HEAP_BLOCK_USED else HEAP_BLOCK_FREE

/-- The bytes a list of blocks covers. -/
def total (bs : List Blk) : Nat := (bs.map (·.size)).sum

@[simp] theorem total_nil : total [] = 0 := rfl

@[simp] theorem total_cons (b : Blk) (bs : List Blk) :
    total (b :: bs) = b.size + total bs := by
  rw [total, total, List.map_cons, List.sum_cons]

@[simp] theorem total_append (xs ys : List Blk) :
    total (xs ++ ys) = total xs + total ys := by
  rw [total, total, total, List.map_append, List.sum_append]

/-- The header at `a` describes `b`, with `nx` as its forward link. -/
structure Header (m : ByteMem) (a : Nat) (b : Blk) (nx : Nat) : Prop where
  room : HEADER_SIZE < b.size
  type_eq : type m a = b.code
  size_eq : size m a = b.size
  next_eq : next m a = nx

def Tiles (m : ByteMem) (n : Nat) : Nat → List Blk → Prop
  | _, [] => True
  | a, b :: bs =>
      Header m a b (if bs = [] then n else a + b.size) ∧
        Tiles m n (a + b.size) bs

variable {m m' : ByteMem} {a n nx : Nat} {b : Blk} {bs xs ys : List Blk}

theorem tiles_cons : Tiles m n a (b :: bs) ↔
    Header m a b (if bs = [] then n else a + b.size) ∧
      Tiles m n (a + b.size) bs := Iff.rfl

theorem tiles_append : ∀ {xs : List Blk} {a : Nat},
    Tiles m n a (xs ++ ys) ↔
      Tiles m (if ys = [] then n else a + total xs) a xs ∧
        Tiles m n (a + total xs) ys := by
  intro xs
  induction xs with
  | nil =>
      intro a
      simp [Tiles]
  | cons b xs ih =>
      intro a
      rw [List.cons_append, tiles_cons, tiles_cons, ih, total_cons]
      have hnx : (if xs ++ ys = [] then n else a + b.size) =
          if xs = [] then (if ys = [] then n else a + (b.size + total xs))
            else a + b.size := by
        cases xs <;> simp
      rw [hnx, ← Nat.add_assoc, and_assoc]

/-! ## Changing bytes -/

/-- `m'` agrees with `m` on the bytes from `lo` up to `hi`. -/
def SameBytes (m m' : ByteMem) (lo hi : Nat) : Prop :=
  ∀ i, lo ≤ i → i < hi → m'.byte i = m.byte i

theorem Header.congr (h : Header m a b nx) (hs : SameBytes m m' a (a + 12)) :
    Header m' a b nx where
  room := h.room
  type_eq := by
    rw [← h.type_eq]
    exact ByteMem.load32_congr fun i _ _ => hs i (by omega) (by omega)
  size_eq := by
    rw [← h.size_eq]
    exact ByteMem.load32_congr fun i _ _ => hs i (by omega) (by omega)
  next_eq := by
    rw [← h.next_eq]
    exact ByteMem.load32_congr fun i _ _ => hs i (by omega) (by omega)

theorem Tiles.congr : ∀ {bs : List Blk} {a : Nat}, Tiles m n a bs →
    SameBytes m m' a (a + total bs) → Tiles m' n a bs := by
  intro bs
  induction bs with
  | nil => intro a _ _; exact trivial
  | cons b bs ih =>
      intro a h hs
      have hroom : 16 < b.size := h.1.room
      rw [total_cons] at hs
      refine ⟨h.1.congr fun i _ _ => hs i (by omega) (by omega), ih h.2 ?_⟩
      intro i hlo hhi
      exact hs i (by omega) (by omega)

/-- The backward link of the first block may change. -/
theorem Tiles.congr_head (h : Tiles m n a bs)
    (hs : ∀ i, a ≤ i → i < a + total bs → i < a + 12 ∨ a + 16 ≤ i →
      m'.byte i = m.byte i) : Tiles m' n a bs := by
  cases bs with
  | nil => exact trivial
  | cons b bs =>
      have hroom : 16 < b.size := h.1.room
      rw [total_cons] at hs
      refine ⟨h.1.congr fun i _ _ => hs i (by omega) (by omega) (by omega),
        h.2.congr fun i hlo hhi => hs i (by omega) (by omega) (by omega)⟩

/-- Replacing the blocks `mid` by `mid'`, which cover the same bytes. Outside
these only the backward link of the block behind them changes. -/
theorem Tiles.splice {mid mid' : List Blk}
    (h : Tiles m n a (xs ++ (mid ++ ys))) (hmid : mid ≠ []) (hmid' : mid' ≠ [])
    (htotal : total mid' = total mid)
    (hnew : Tiles m' (if ys = [] then n else a + total xs + total mid)
      (a + total xs) mid')
    (hbelow : SameBytes m m' a (a + total xs))
    (habove : ∀ i, a + total xs + total mid ≤ i →
      i < a + total xs + total mid + total ys →
      i < a + total xs + total mid + 12 ∨ a + total xs + total mid + 16 ≤ i →
      m'.byte i = m.byte i) :
    Tiles m' n a (xs ++ (mid' ++ ys)) := by
  obtain ⟨h₁, h₂⟩ := tiles_append.mp h
  obtain ⟨-, h₃⟩ := tiles_append.mp h₂
  have hne : mid ++ ys ≠ [] := by simp [hmid]
  have hne' : mid' ++ ys ≠ [] := by simp [hmid']
  rw [if_neg hne] at h₁
  refine tiles_append.mpr ⟨?_, tiles_append.mpr ⟨?_, ?_⟩⟩
  · rw [if_neg hne']
    exact h₁.congr hbelow
  · rw [htotal]
    exact hnew
  · rw [htotal]
    exact h₃.congr_head habove

/-- A block of the tiling, found by its place. -/
theorem Tiles.header_at (h : Tiles m n a (xs ++ b :: ys)) :
    Header m (a + total xs) b
      (if ys = [] then n else a + total xs + b.size) :=
  (tiles_append.mp h).2.1

theorem Tiles.length_le : ∀ {bs : List Blk} {a : Nat}, Tiles m n a bs →
    bs.length ≤ total bs := by
  intro bs
  induction bs with
  | nil => intro a _; exact Nat.le_refl 0
  | cons b bs ih =>
      intro a h
      have := ih h.2
      have hroom : 16 < b.size := h.1.room
      rw [total_cons, List.length_cons]
      omega

/-! ## The used blocks -/

/-- The addresses of the headers of the used blocks. -/
def usedAddrs : Nat → List Blk → List Nat
  | _, [] => []
  | a, b :: bs =>
      if b.used then a :: usedAddrs (a + b.size) bs
      else usedAddrs (a + b.size) bs

theorem usedAddrs_append : ∀ {xs : List Blk} {a : Nat},
    usedAddrs a (xs ++ ys) = usedAddrs a xs ++ usedAddrs (a + total xs) ys := by
  intro xs
  induction xs with
  | nil => intro a; simp [usedAddrs]
  | cons b xs ih =>
      intro a
      rw [List.cons_append, usedAddrs, usedAddrs, ih, total_cons, Nat.add_assoc]
      split <;> rfl

theorem usedAddrs_cons_free (hb : b.used = false) :
    usedAddrs a (b :: bs) = usedAddrs (a + b.size) bs := by
  rw [usedAddrs, hb]
  rfl

theorem usedAddrs_cons_used (hb : b.used = true) :
    usedAddrs a (b :: bs) = a :: usedAddrs (a + b.size) bs := by
  rw [usedAddrs, hb]
  rfl

/-- A used block's address, found by its place. -/
theorem exists_of_mem_usedAddrs : ∀ {bs : List Blk} {a h : Nat},
    h ∈ usedAddrs a bs →
      ∃ xs, ∃ b : Blk, ∃ ys, bs = xs ++ b :: ys ∧ b.used = true ∧
        h = a + total xs := by
  intro bs
  induction bs with
  | nil => intro a h hm; cases hm
  | cons b bs ih =>
      intro a h hm
      have hrec : h ∈ usedAddrs (a + b.size) bs →
          ∃ xs, ∃ c : Blk, ∃ ys, b :: bs = xs ++ c :: ys ∧ c.used = true ∧
            h = a + total xs := by
        intro hm
        obtain ⟨xs, c, ys, rfl, hc, hh⟩ := ih hm
        refine ⟨b :: xs, c, ys, rfl, hc, ?_⟩
        rw [hh, total_cons, Nat.add_assoc]
      cases hb : b.used with
      | false =>
          rw [usedAddrs_cons_free hb] at hm
          exact hrec hm
      | true =>
          rw [usedAddrs_cons_used hb] at hm
          rcases List.mem_cons.mp hm with rfl | hm
          · exact ⟨[], b, bs, rfl, hb, rfl⟩
          · exact hrec hm

/-- Every used block lies inside the tiled stretch. -/
theorem Tiles.used_inside (h : Tiles m n a bs) {x : Nat}
    (hx : x ∈ usedAddrs a bs) : a ≤ x ∧ x + size m x ≤ a + total bs := by
  obtain ⟨xs, b, ys, rfl, -, rfl⟩ := exists_of_mem_usedAddrs hx
  rw [h.header_at.size_eq]
  simp only [total_append, total_cons]
  omega

/-- The used blocks follow each other without overlap. -/
theorem Tiles.used_disjoint : ∀ {bs : List Blk} {a : Nat}, Tiles m n a bs →
    (usedAddrs a bs).Pairwise fun x y => x + size m x ≤ y := by
  intro bs
  induction bs with
  | nil => intro a _; exact List.Pairwise.nil
  | cons b bs ih =>
      intro a h
      cases hb : b.used with
      | false =>
          rw [usedAddrs_cons_free hb]
          exact ih h.2
      | true =>
          rw [usedAddrs_cons_used hb]
          refine List.pairwise_cons.mpr ⟨fun y hy => ?_, ih h.2⟩
          have := (h.2.used_inside hy).1
          rw [h.1.size_eq]
          exact this

end LearningLinux.MiniCrt
