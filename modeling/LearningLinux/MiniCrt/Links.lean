import Mathlib.Data.List.Chain
import LearningLinux.MiniCrt.HeapSafe

/-!
# The block list, backward links included

`Linked m q a bs` adds to a tiling what `Tiles` leaves out: the header of the
first block points back to `q` and every other one to the block in front of
it. `Separated bs` says that no two neighbours are free. `Chained` is a heap
with both, and `ListOk` says the same of a heap without naming its blocks, by
walking along `next`.

`Linked.splice` goes with `Tiles.splice`. The backward link of the block
behind the replaced ones is the one that is easily forgotten; it is a
hypothesis there.
-/

namespace LearningLinux.MiniCrt

open Lib

/-! ## Backward links -/

def Linked (m : ByteMem) : Nat → Nat → List Blk → Prop
  | _, _, [] => True
  | q, a, b :: bs => prev m a = q ∧ Linked m a (a + b.size) bs

/-- The address of the last of the blocks that start at `a`, or `q`. -/
def lastAddr (q : Nat) : Nat → List Blk → Nat
  | _, [] => q
  | a, b :: bs => lastAddr a (a + b.size) bs

variable {base a n q : Nat} {m m' : ByteMem} {b : Blk} {bs xs ys : List Blk}

theorem lastAddr_append : ∀ {xs : List Blk} {q a : Nat},
    lastAddr q a (xs ++ ys) = lastAddr (lastAddr q a xs) (a + total xs) ys := by
  intro xs
  induction xs with
  | nil => intro q a; rfl
  | cons b xs ih =>
      intro q a
      rw [List.cons_append, lastAddr, lastAddr, ih, total_cons, Nat.add_assoc]

theorem lastAddr_concat : lastAddr q a (xs ++ [b]) = a + total xs := by
  rw [lastAddr_append]
  rfl

theorem linked_append : ∀ {xs : List Blk} {q a : Nat},
    Linked m q a (xs ++ ys) ↔
      Linked m q a xs ∧ Linked m (lastAddr q a xs) (a + total xs) ys := by
  intro xs
  induction xs with
  | nil => intro q a; simp [Linked, lastAddr]
  | cons b xs ih =>
      intro q a
      rw [List.cons_append, Linked, Linked, ih, lastAddr, total_cons,
        Nat.add_assoc, and_assoc]

theorem prev_congr (h : SameBytes m m' (a + 12) (a + 16)) :
    prev m' a = prev m a :=
  ByteMem.load32_congr fun i _ _ => h i (by omega) (by omega)

theorem Linked.congr : ∀ {bs : List Blk} {q a : Nat}, Linked m q a bs →
    Tiles m n a bs → SameBytes m m' a (a + total bs) →
    Linked m' q a bs := by
  intro bs
  induction bs with
  | nil => intro q a _ _ _; exact trivial
  | cons b bs ih =>
      intro q a h ht hs
      have hroom : 16 < b.size := ht.1.room
      rw [total_cons] at hs
      refine ⟨?_, ih h.2 ht.2 fun i _ _ => hs i (by omega) (by omega)⟩
      rw [← h.1]
      exact prev_congr fun i _ _ => hs i (by omega) (by omega)

/-- Replacing the blocks `mid` by `mid'`. The block behind them has to be told
which block it follows now. -/
theorem Linked.splice {mid mid' : List Blk}
    (h : Linked m q a (xs ++ (mid ++ ys)))
    (ht : Tiles m n a (xs ++ (mid ++ ys)))
    (htotal : total mid' = total mid)
    (hnew : Linked m' (lastAddr q a xs) (a + total xs) mid')
    (hbelow : SameBytes m m' a (a + total xs))
    (habove : SameBytes m m' (a + total xs + total mid + 16)
      (a + total xs + total mid + total ys))
    (hprev : ys ≠ [] → prev m' (a + total xs + total mid) =
      lastAddr (lastAddr q a xs) (a + total xs) mid') :
    Linked m' q a (xs ++ (mid' ++ ys)) := by
  obtain ⟨h₁, h₂⟩ := linked_append.mp h
  obtain ⟨-, h₃⟩ := linked_append.mp h₂
  obtain ⟨t₁, t₂⟩ := tiles_append.mp ht
  obtain ⟨-, t₃⟩ := tiles_append.mp t₂
  refine linked_append.mpr ⟨h₁.congr t₁ hbelow, linked_append.mpr ⟨hnew, ?_⟩⟩
  rw [htotal]
  cases ys with
  | nil => exact trivial
  | cons c ys =>
      have hroom : 16 < c.size := t₃.1.room
      refine ⟨hprev (by simp), h₃.2.congr t₃.2 fun i _ _ => ?_⟩
      rw [total_cons] at habove
      exact habove i (by omega) (by omega)

/-- The link of a block that is not the first. -/
theorem Linked.prev_at {c : Blk} (h : Linked m q a (xs ++ b :: c :: ys)) :
    prev m (a + total xs + b.size) = a + total xs :=
  (linked_append.mp h).2.2.1

/-! ## Neighbours -/

/-- No two neighbouring blocks are free. -/
def Separated (bs : List Blk) : Prop :=
  bs.IsChain fun b c => b.used = true ∨ c.used = true

structure Chained (base : Nat) (m : ByteMem) (bs : List Blk) : Prop where
  heaped : Heaped base m bs
  linked : Linked m 0 base bs
  separated : Separated bs

/-! ## The list as the program finds it -/

structure ListOk (base : Nat) (heap : Heap) : Prop where
  first : (blocks heap).head? = some base
  adjacent : ∀ h ∈ blocks heap, next heap.mem h ≠ 0 →
    next heap.mem h = h + size heap.mem h
  ends : ∃ h ∈ blocks heap, next heap.mem h = 0
  covers : ((blocks heap).map (size heap.mem)).sum = heapSize
  back : ∀ h ∈ blocks heap, next heap.mem h ≠ 0 →
    prev heap.mem (next heap.mem h) = h
  apart : ∀ h ∈ blocks heap, next heap.mem h ≠ 0 →
    ¬ (type heap.mem h = HEAP_BLOCK_FREE ∧
      type heap.mem (next heap.mem h) = HEAP_BLOCK_FREE)

/-- One free block as large as the heap is all there is. -/
structure AllFree (base : Nat) (heap : Heap) : Prop where
  one : blocks heap = [base]
  size_eq : size heap.mem base = heapSize
  type_eq : type heap.mem base = HEAP_BLOCK_FREE
  next_eq : next heap.mem base = 0

/-- The addresses of the blocks that start at `a`. -/
def addrs : Nat → List Blk → List Nat
  | _, [] => []
  | a, b :: bs => a :: addrs (a + b.size) bs

theorem walk_eq_addrs : ∀ {bs : List Blk} {fuel a : Nat}, Tiles m 0 a bs →
    0 < a → bs.length ≤ fuel →
    walk m fuel (if bs = [] then 0 else a) = addrs a bs := by
  intro bs
  induction bs with
  | nil =>
      intro fuel a _ _ _
      cases fuel with
      | zero => rfl
      | succ fuel => rfl
  | cons b bs ih =>
      intro fuel a h ha hlen
      have ha' : ¬ a = 0 := by omega
      rw [if_neg (by simp : ¬ b :: bs = [])]
      cases fuel with
      | zero => simp at hlen
      | succ fuel =>
          rw [walk, if_neg ha', h.1.next_eq, addrs]
          rw [List.length_cons] at hlen
          rw [ih h.2 (by omega) (by omega)]

theorem Heaped.blocks_eq {heap : Heap} (h : Heaped base heap.mem bs)
    (hlist : heap.listHead = base) : blocks heap = addrs base bs := by
  have hne : bs ≠ [] := by
    rintro rfl
    exact absurd h.covers (by decide)
  have hlen : bs.length ≤ heapSize := by
    rw [← h.covers]
    exact h.tiles.length_le
  have hw := walk_eq_addrs h.tiles h.base_pos hlen
  rw [if_neg hne] at hw
  rw [blocks, hlist, hw]

theorem mem_addrs : ∀ {bs : List Blk} {a h : Nat}, h ∈ addrs a bs ↔
    ∃ xs b ys, bs = xs ++ b :: ys ∧ h = a + total xs := by
  intro bs
  induction bs with
  | nil => intro a h; simp [addrs]
  | cons b bs ih =>
      intro a h
      rw [addrs, List.mem_cons, ih]
      constructor
      · rintro (rfl | ⟨xs, c, ys, rfl, rfl⟩)
        · exact ⟨[], b, bs, rfl, rfl⟩
        · refine ⟨b :: xs, c, ys, rfl, ?_⟩
          rw [total_cons, Nat.add_assoc]
      · rintro ⟨xs, c, ys, hbs, rfl⟩
        cases xs with
        | nil => exact Or.inl rfl
        | cons d xs =>
            obtain ⟨rfl, rfl⟩ := List.cons.inj hbs
            refine Or.inr ⟨xs, c, ys, rfl, ?_⟩
            rw [total_cons, Nat.add_assoc]

theorem sizes_addrs : ∀ {bs : List Blk} {a n : Nat}, Tiles m n a bs →
    ((addrs a bs).map (size m)).sum = total bs := by
  intro bs
  induction bs with
  | nil => intro a n _; rfl
  | cons b bs ih =>
      intro a n h
      rw [addrs, List.map_cons, List.sum_cons, h.1.size_eq, ih h.2, total_cons]

/-- A block with one behind it, found by its address. -/
theorem Heaped.exists_next {h : Nat} (hh : Heaped base m bs)
    (hmem : h ∈ addrs base bs) (hnext : next m h ≠ 0) :
    ∃ xs, ∃ b c : Blk, ∃ ys, bs = xs ++ b :: c :: ys ∧ h = base + total xs ∧
      next m h = base + total xs + b.size := by
  obtain ⟨xs, b, ys, rfl, rfl⟩ := mem_addrs.mp hmem
  have hnx := hh.header.next_eq
  cases ys with
  | nil =>
      rw [if_pos rfl] at hnx
      exact absurd hnx hnext
  | cons c ys =>
      rw [if_neg (by simp)] at hnx
      exact ⟨xs, b, c, ys, rfl, rfl, hnx⟩

theorem Chained.listOk {heap : Heap} (h : Chained base heap.mem bs)
    (hlist : heap.listHead = base) : ListOk base heap := by
  have hb := h.heaped.blocks_eq hlist
  have hsplit : ∀ x ∈ blocks heap, next heap.mem x ≠ 0 →
      ∃ xs, ∃ b c : Blk, ∃ ys, bs = xs ++ b :: c :: ys ∧
        x = base + total xs ∧
        next heap.mem x = base + total xs + b.size := by
    intro x hx hnext
    rw [hb] at hx
    exact h.heaped.exists_next hx hnext
  obtain ⟨ys, b, rfl⟩ : ∃ ys b, bs = ys ++ [b] := by
    refine ⟨bs.dropLast, bs.getLast ?_, (List.dropLast_concat_getLast _).symm⟩
    rintro rfl
    exact absurd h.heaped.covers (by decide)
  refine ⟨?_, ?_, ?_, ?_, ?_, ?_⟩
  · rw [hb]
    cases ys with
    | nil => rfl
    | cons c ys => rfl
  · intro x hx hnext
    obtain ⟨xs, c, d, zs, hbs, rfl, hn⟩ := hsplit x hx hnext
    have hh := h.heaped
    rw [hbs] at hh
    rw [hn, hh.header.size_eq]
  · refine ⟨base + total ys, ?_, h.heaped.header.next_eq⟩
    rw [hb]
    exact mem_addrs.mpr ⟨ys, b, [], rfl, rfl⟩
  · rw [hb, sizes_addrs h.heaped.tiles, h.heaped.covers]
  · intro x hx hnext
    obtain ⟨xs, c, d, zs, hbs, rfl, hn⟩ := hsplit x hx hnext
    have hl := h.linked
    rw [hbs] at hl
    rw [hn, hl.prev_at]
  · intro x hx hnext hfree
    obtain ⟨xs, c, d, zs, hbs, rfl, hn⟩ := hsplit x hx hnext
    have hh := h.heaped
    have hs := h.separated
    rw [hbs] at hh hs
    rw [hn, hh.header.type_eq, hh.header_next.type_eq] at hfree
    have hcd : c.used = true ∨ d.used = true :=
      (List.isChain_append_cons_cons.mp hs).2.1
    rcases hcd with hc | hd
    · rw [Blk.free_of_code hfree.1] at hc
      cases hc
    · rw [Blk.free_of_code hfree.2] at hd
      cases hd

/-- With every block freed there is one left. -/
theorem Chained.allFree {heap : Heap} (h : Chained base heap.mem bs)
    (hlist : heap.listHead = base) (hused : usedAddrs base bs = []) :
    AllFree base heap := by
  have hfree : ∀ c ∈ bs, c.used = false := by
    intro c hc
    obtain ⟨xs, ys, rfl⟩ := List.append_of_mem hc
    cases hu : c.used with
    | false => rfl
    | true =>
        rw [usedAddrs_append, usedAddrs_cons_used hu] at hused
        simp at hused
  match bs, h, hfree with
  | [], h, _ => exact absurd h.heaped.covers (by decide)
  | [b], h, hfree =>
      have hh : Header heap.mem base b 0 := h.heaped.tiles.1
      refine ⟨h.heaped.blocks_eq hlist, ?_, ?_, hh.next_eq⟩
      · have hcov := h.heaped.covers
        rw [total_cons, total_nil, Nat.add_zero] at hcov
        rw [hh.size_eq, hcov]
      · rw [hh.type_eq, Blk.code_free (hfree b (by simp))]
  | b :: c :: bs, h, hfree =>
      have hbc : b.used = true ∨ c.used = true := h.separated.rel
      rw [hfree b (by simp), hfree c (by simp)] at hbc
      simp at hbc

end LearningLinux.MiniCrt
