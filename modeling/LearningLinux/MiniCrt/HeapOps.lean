import LearningLinux.MiniCrt.Tiling

/-!
# What `malloc` and `free` do to the tiling

`Heaped base m bs` is a heap whose blocks `bs` tile the 32 MB from `base` on.
`malloc` marks the first block that is large enough as used, split or whole;
`free` marks a block as free and joins it with its neighbours. Each keeps the
heap tiled, and changes which blocks are used by the one block it is about
and no other.

The one thing `free` needs for that is a sound backward link. If it joins the
block with the one at `header->prev`, that has to be the block in front of
it (`MergesInOrder`).
-/

namespace LearningLinux.MiniCrt

open Lib

theorem HEAP_BLOCK_FREE_lt : HEAP_BLOCK_FREE < 2 ^ 32 := by decide
theorem HEAP_BLOCK_USED_lt : HEAP_BLOCK_USED < 2 ^ 32 := by decide

theorem Blk.code_used {b : Blk} (h : b.used = true) :
    b.code = HEAP_BLOCK_USED := by rw [Blk.code, h]; rfl

theorem Blk.code_free {b : Blk} (h : b.used = false) :
    b.code = HEAP_BLOCK_FREE := by rw [Blk.code, h]; rfl

theorem Blk.free_of_code {b : Blk} (h : b.code = HEAP_BLOCK_FREE) :
    b.used = false := by
  cases hb : b.used with
  | false => rfl
  | true =>
      rw [Blk.code_used hb] at h
      exact absurd h (by decide)

/-- The blocks `bs` tile the heap that starts at `base`. -/
structure Heaped (base : Nat) (m : ByteMem) (bs : List Blk) : Prop where
  base_pos : 0 < base
  fits : base + heapSize < 2 ^ 32
  tiles : Tiles m 0 base bs
  covers : total bs = heapSize

variable {base : Nat} {m m' : ByteMem} {b p : Blk} {bs xs ys : List Blk}

/-- The place of a block, as a number the machine can hold. -/
theorem Heaped.bound (h : Heaped base m (xs ++ b :: ys)) :
    base + total xs + b.size + total ys < 2 ^ 32 := by
  have hc := h.covers
  have hf := h.fits
  simp only [total_append, total_cons] at hc
  omega

theorem Heaped.header (h : Heaped base m (xs ++ b :: ys)) :
    Header m (base + total xs) b
      (if ys = [] then 0 else base + total xs + b.size) := h.tiles.header_at

/-- Replacing a few blocks by others, as `Tiles.splice` does. -/
theorem Heaped.splice {mid mid' : List Blk}
    (h : Heaped base m (xs ++ (mid ++ ys))) (hmid : mid ≠ [])
    (hmid' : mid' ≠ []) (htotal : total mid' = total mid)
    (hnew : Tiles m' (if ys = [] then 0 else base + total xs + total mid)
      (base + total xs) mid')
    (hbelow : SameBytes m m' base (base + total xs))
    (habove : ∀ i, base + total xs + total mid ≤ i →
      i < base + total xs + total mid + total ys →
      i < base + total xs + total mid + 12 ∨
        base + total xs + total mid + 16 ≤ i → m'.byte i = m.byte i) :
    Heaped base m' (xs ++ (mid' ++ ys)) where
  base_pos := h.base_pos
  fits := h.fits
  tiles := h.tiles.splice hmid hmid' htotal hnew hbelow habove
  covers := by
    rw [← h.covers]
    simp only [total_append, htotal]

/-! ## Marking a block -/

theorem Heaped.setType (h : Heaped base m (xs ++ b :: ys)) (u : Bool) :
    Heaped base (setType m (base + total xs) (Blk.code ⟨b.size, u⟩))
      (xs ++ ⟨b.size, u⟩ :: ys) := by
  have hh := h.header
  have hroom : 16 < b.size := hh.room
  have hlt : Blk.code ⟨b.size, u⟩ < 2 ^ 32 := by
    cases u
    · exact HEAP_BLOCK_FREE_lt
    · exact HEAP_BLOCK_USED_lt
  refine @Heaped.splice base m _ xs ys [b] [⟨b.size, u⟩] h (by simp) (by simp)
    (by simp) ⟨?_, trivial⟩ ?_ ?_
  · refine ⟨hh.room, ByteMem.load32_store32_same hlt, ?_, ?_⟩
    · rw [← hh.size_eq]
      exact ByteMem.load32_store32_apart (by omega)
    · rw [if_pos rfl, total_cons, total_nil, Nat.add_zero, ← hh.next_eq]
      exact ByteMem.load32_store32_apart (by omega)
  · intro i _ hi
    exact ByteMem.store32_apart (by omega)
  · intro i hi _ _
    rw [total_cons] at hi
    exact ByteMem.store32_apart (by omega)

/-! ## `free` -/

/-- If `free` is about to join the block at `h` with the one its backward link
names, that is the block in front of it. -/
def MergesInOrder (base : Nat) (m : ByteMem) (xs : List Blk) : Prop :=
  prev m (base + total xs) ≠ 0 →
    type m (prev m (base + total xs)) = HEAP_BLOCK_FREE →
      ∃ xs' p, xs = xs' ++ [p] ∧ prev m (base + total xs) = base + total xs'

/-- Joining two blocks: the forward link and the size of the first, and the
backward link of the block behind. -/
def joined (m : ByteMem) (q nx sz : Nat) : ByteMem :=
  setSize (if nx = 0 then setNext m q nx else
    setPrev (setNext m q nx) nx q) q sz

theorem joined_byte {q nx sz i : Nat} (h₁ : i < q + 4 ∨ q + 12 ≤ i)
    (h₂ : nx = 0 ∨ i < nx + 12 ∨ nx + 16 ≤ i) :
    (joined m q nx sz).byte i = m.byte i := by
  rw [joined, MiniCrt.setSize, ByteMem.store32_apart (by omega)]
  split
  · rw [MiniCrt.setNext, ByteMem.store32_apart (by omega)]
  · rw [MiniCrt.setPrev, ByteMem.store32_apart (by omega), MiniCrt.setNext,
      ByteMem.store32_apart (by omega)]

theorem joined_next {q nx sz : Nat} (hnx : nx < 2 ^ 32)
    (h : nx = 0 ∨ q + 16 ≤ nx) : next (joined m q nx sz) q = nx := by
  rw [joined, next, MiniCrt.setSize, ByteMem.load32_store32_apart (by omega)]
  split
  · exact ByteMem.load32_store32_same hnx
  · rw [MiniCrt.setPrev, ByteMem.load32_store32_apart (by omega)]
    exact ByteMem.load32_store32_same hnx

theorem mergePrev_eq {q h : Nat} {c : Blk} {nx : Nat} (hq : 0 < q)
    (hprev : prev m h = q) (hfree : type m q = HEAP_BLOCK_FREE)
    (hp : size m q = p.size) (hroom : 16 < p.size) (hh : h = q + p.size)
    (hc : Header m h c nx) (hnx : nx = 0 ∨ nx = h + c.size)
    (hlt : p.size + c.size < 2 ^ 32) :
    mergePrev m h = (joined m q nx (p.size + c.size), q) := by
  have hroomc : 16 < c.size := hc.room
  have hcond : prev m h ≠ 0 ∧ type m (prev m h) = HEAP_BLOCK_FREE := by
    rw [hprev]
    exact ⟨by omega, hfree⟩
  rw [mergePrev, if_pos hcond]
  have hnext := hc.next_eq
  have hsize := hc.size_eq
  simp only [prev, next, size, MiniCrt.setNext, MiniCrt.setPrev,
    MiniCrt.setSize] at hprev hnext hsize hp ⊢
  rw [joined]
  rcases hnx with h0 | hnx
  · subst h0
    simp (disch := omega) only [hprev, hnext, MiniCrt.setNext,
      MiniCrt.setSize, ByteMem.load32_store32_apart, ne_eq, not_true_eq_false,
      if_false, if_true, hsize, hp, add32, Nat.mod_eq_of_lt]
  · have hne : ¬ nx = 0 := by omega
    simp (disch := omega) only [hprev, hnext, MiniCrt.setNext,
      MiniCrt.setSize, MiniCrt.setPrev, ByteMem.load32_store32_apart, ne_eq,
      hne, not_false_eq_true, if_false, if_true, hsize, hp, add32,
      Nat.mod_eq_of_lt]

/-- Two neighbouring blocks become one: only the size and the forward link of
the first and the backward link of the block behind have changed. -/
theorem Heaped.join {c : Blk} (h : Heaped base m (xs ++ p :: c :: ys))
    (hp : p.used = false)
    (hsame : ∀ i, i < base + total xs + 4 ∨ base + total xs + 12 ≤ i →
      i < base + total xs + p.size + c.size + 12 ∨
        base + total xs + p.size + c.size + 16 ≤ i → m'.byte i = m.byte i)
    (hsize : size m' (base + total xs) = p.size + c.size)
    (hnext : next m' (base + total xs) =
      if ys = [] then 0 else base + total xs + p.size + c.size) :
    Heaped base m' (xs ++ ⟨p.size + c.size, false⟩ :: ys) := by
  have hh := h.header
  have hroom : 16 < p.size := hh.room
  have htype : type m' (base + total xs) = HEAP_BLOCK_FREE := by
    rw [← Blk.code_free hp, ← hh.type_eq]
    exact ByteMem.load32_congr fun i _ _ => hsame i (by omega) (by omega)
  refine @Heaped.splice base m _ xs ys [p, c] [⟨p.size + c.size, false⟩] h
    (by simp) (by simp) (by simp) ⟨?_, trivial⟩ ?_ ?_
  · refine ⟨?_, htype, hsize, ?_⟩
    · show 16 < p.size + c.size
      omega
    · rw [if_pos rfl, hnext]
      simp only [total_cons, total_nil, Nat.add_zero, Nat.add_assoc]
  · intro i _ hi
    exact hsame i (by omega) (by omega)
  · intro i hlo _ hi
    simp only [total_cons, total_nil, Nat.add_zero] at hlo hi
    exact hsame i (by omega) (by omega)

/-- Joining free blocks changes neither the extent of the heap nor which
blocks are used. -/
theorem usedAddrs_join {c : Blk} (hp : p.used = false) (hc : c.used = false)
    (a : Nat) : usedAddrs a (xs ++ ⟨p.size + c.size, false⟩ :: ys) =
      usedAddrs a (xs ++ p :: c :: ys) := by
  rw [usedAddrs_append, usedAddrs_append, usedAddrs_cons_free rfl,
    usedAddrs_cons_free hp, usedAddrs_cons_free hc]
  simp only [Nat.add_assoc]

/-- The header behind a block. -/
theorem Heaped.header_next {c : Blk} (h : Heaped base m (xs ++ b :: c :: ys)) :
    Header m (base + total xs + b.size) c
      (if ys = [] then 0 else base + total xs + b.size + c.size) :=
  (tiles_append.mp h.tiles).2.2.1

/-- The first merge of `free`, with the free block in front. -/
theorem mergePrev_join {c : Blk} (h : Heaped base m (xs ++ p :: c :: ys))
    (hp : p.used = false)
    (hprev : prev m (base + total xs + p.size) = base + total xs) :
    mergePrev m (base + total xs + p.size) = (joined m (base + total xs)
      (if ys = [] then 0 else base + total xs + p.size + c.size)
      (p.size + c.size), base + total xs) := by
  have hh := h.header
  have hroom : 16 < p.size := hh.room
  have hbound := h.bound
  have hpos := h.base_pos
  have hfree : type m (base + total xs) = HEAP_BLOCK_FREE := by
    rw [hh.type_eq, Blk.code_free hp]
  rw [total_cons] at hbound
  refine mergePrev_eq (by omega) hprev hfree hh.size_eq hroom rfl
    h.header_next ?_ (by omega)
  split
  · exact Or.inl rfl
  · exact Or.inr rfl

/-- The bytes that merge changes. -/
theorem joined_same {c : Blk} (sz : Nat) {i : Nat}
    (h₁ : i < base + total xs + 4 ∨ base + total xs + 12 ≤ i)
    (h₂ : i < base + total xs + p.size + c.size + 12 ∨
      base + total xs + p.size + c.size + 16 ≤ i) :
    (joined m (base + total xs)
      (if ys = [] then 0 else base + total xs + p.size + c.size) sz).byte i =
      m.byte i := by
  refine joined_byte h₁ ?_
  split
  · exact Or.inl rfl
  · exact Or.inr h₂

theorem Heaped.joined {c : Blk} (h : Heaped base m (xs ++ p :: c :: ys))
    (hp : p.used = false) :
    Heaped base (joined m (base + total xs)
      (if ys = [] then 0 else base + total xs + p.size + c.size)
      (p.size + c.size)) (xs ++ ⟨p.size + c.size, false⟩ :: ys) := by
  have hroom : 16 < p.size := h.header.room
  have hroomc : 16 < c.size := h.header_next.room
  have hbound := h.bound
  rw [total_cons] at hbound
  refine h.join hp (fun i h₁ h₂ => joined_same _ h₁ h₂)
    (ByteMem.load32_store32_same (by omega)) (joined_next ?_ ?_)
  · split <;> omega
  · split <;> omega

theorem mergePrev_spec (h : Heaped base m (xs ++ b :: ys))
    (hb : b.used = false) (horder : MergesInOrder base m xs) :
    ∃ xs' b', (mergePrev m (base + total xs)).2 = base + total xs' ∧
      b'.used = false ∧
      Heaped base (mergePrev m (base + total xs)).1 (xs' ++ b' :: ys) ∧
      usedAddrs base (xs' ++ b' :: ys) = usedAddrs base (xs ++ b :: ys) := by
  by_cases hcond : prev m (base + total xs) ≠ 0 ∧
      type m (prev m (base + total xs)) = HEAP_BLOCK_FREE
  · obtain ⟨xs', p, rfl, hprev⟩ := horder hcond.1 hcond.2
    rw [List.append_assoc, List.singleton_append] at h ⊢
    have haddr : base + total (xs' ++ [p]) = base + total xs' + p.size := by
      simp only [total_append, total_cons, total_nil]
      omega
    rw [hprev, h.header.type_eq] at hcond
    have hp := Blk.free_of_code hcond.2
    rw [haddr] at hprev ⊢
    rw [mergePrev_join h hp hprev]
    exact ⟨xs', ⟨p.size + b.size, false⟩, rfl, rfl, h.joined hp,
      usedAddrs_join hp hb base⟩
  · rw [mergePrev, if_neg hcond]
    exact ⟨xs, b, rfl, hb, h, rfl⟩

/-- What the second merge of `free` leaves. -/
def joinedNext (m : ByteMem) (q nx sz : Nat) : ByteMem :=
  MiniCrt.setNext (MiniCrt.setSize m q sz) q nx

theorem joinedNext_byte {q nx sz i : Nat} (h : i < q + 4 ∨ q + 12 ≤ i) :
    (joinedNext m q nx sz).byte i = m.byte i := by
  rw [joinedNext, MiniCrt.setNext, ByteMem.store32_apart (by omega),
    MiniCrt.setSize, ByteMem.store32_apart (by omega)]

theorem mergeNext_join {c : Blk} (h : Heaped base m (xs ++ b :: c :: ys))
    (hc : c.used = false) :
    mergeNext m (base + total xs) = joinedNext m (base + total xs)
      (if ys = [] then 0 else base + total xs + b.size + c.size)
      (b.size + c.size) := by
  have hh := h.header
  have hn := h.header_next
  have hbound := h.bound
  have hpos := h.base_pos
  have hroom : 16 < b.size := hh.room
  rw [total_cons] at hbound
  have hnext : next m (base + total xs) = base + total xs + b.size := by
    rw [hh.next_eq, if_neg (by simp)]
  have hcond : next m (base + total xs) ≠ 0 ∧
      type m (next m (base + total xs)) = HEAP_BLOCK_FREE := by
    rw [hnext, hn.type_eq, Blk.code_free hc]
    exact ⟨by omega, rfl⟩
  rw [mergeNext, if_pos hcond]
  have hsize := hh.size_eq
  have hcsize := hn.size_eq
  have hcnext := hn.next_eq
  simp only [next, size, joinedNext, MiniCrt.setNext,
    MiniCrt.setSize] at hnext hsize hcsize hcnext ⊢
  simp (disch := omega) only [hnext, hsize, hcsize, add32, Nat.mod_eq_of_lt,
    ByteMem.load32_store32_apart, hcnext]

theorem Heaped.joinedNext {c : Blk} (h : Heaped base m (xs ++ b :: c :: ys))
    (hb : b.used = false) :
    Heaped base (joinedNext m (base + total xs)
      (if ys = [] then 0 else base + total xs + b.size + c.size)
      (b.size + c.size)) (xs ++ ⟨b.size + c.size, false⟩ :: ys) := by
  have hbound := h.bound
  rw [total_cons] at hbound
  refine h.join hb (fun i h₁ _ => joinedNext_byte h₁) ?_ ?_
  · rw [MiniCrt.joinedNext, MiniCrt.size, MiniCrt.setNext,
      ByteMem.load32_store32_apart (by omega)]
    exact ByteMem.load32_store32_same (by omega)
  · refine ByteMem.load32_store32_same ?_
    split <;> omega

/-- Where the block behind is used, or there is none, nothing happens. -/
theorem mergeNext_none (h : Heaped base m (xs ++ b :: ys))
    (hys : ∀ c, ys.head? = some c → c.used = true) :
    mergeNext m (base + total xs) = m := by
  rw [mergeNext, if_neg]
  intro ⟨hnext, hfree⟩
  cases ys with
  | nil => exact hnext h.header.next_eq
  | cons c ys =>
      rw [h.header.next_eq, if_neg (by simp), h.header_next.type_eq,
        Blk.code_used (hys c rfl)] at hfree
      exact absurd hfree (by decide)

theorem mergeNext_spec (h : Heaped base m (xs ++ b :: ys))
    (hb : b.used = false) :
    ∃ bs, Heaped base (mergeNext m (base + total xs)) bs ∧
      usedAddrs base bs = usedAddrs base (xs ++ b :: ys) := by
  by_cases hys : ∀ c, ys.head? = some c → c.used = true
  · rw [mergeNext_none h hys]
    exact ⟨_, h, rfl⟩
  · match ys, h, hys with
    | [], _, hys => exact absurd nofun hys
    | c :: ys, h, hys =>
        have hc : c.used = false := by
          rw [← Bool.not_eq_true]
          intro hu
          refine hys fun d hd => ?_
          cases hd
          exact hu
        rw [mergeNext_join h hc]
        exact ⟨_, h.joinedNext hb, usedAddrs_join hb hc base⟩

theorem headerOf_payload {h : Nat} (hlt : h + HEADER_SIZE < 2 ^ 32) :
    headerOf (h + HEADER_SIZE) = h := by
  simp only [headerOf, add32, HEADER_SIZE] at hlt ⊢
  omega

/-- `free` of a used block takes it out of the used ones. -/
theorem free_spec {heap : Heap} (h : Heaped base heap.mem (xs ++ b :: ys))
    (hb : b.used = true)
    (horder : MergesInOrder base
      (MiniCrt.setType heap.mem (base + total xs) HEAP_BLOCK_FREE) xs) :
    ∃ bs, Heaped base (free heap (base + total xs + HEADER_SIZE)).mem bs ∧
      (free heap (base + total xs + HEADER_SIZE)).listHead = heap.listHead ∧
      usedAddrs base bs =
        usedAddrs base xs ++ usedAddrs (base + total xs + b.size) ys := by
  have hh := h.header
  have hroom := hh.room
  have hbound := h.bound
  have htype : type heap.mem (base + total xs) = HEAP_BLOCK_USED := by
    rw [hh.type_eq, Blk.code_used hb]
  rw [free, headerOf_payload (by omega), if_neg (by simp [htype])]
  obtain ⟨xs', b', haddr, hb', h', hused⟩ :=
    mergePrev_spec (h.setType false) rfl horder
  obtain ⟨bs, h'', hused'⟩ := mergeNext_spec h' hb'
  refine ⟨bs, ?_, rfl, ?_⟩
  · dsimp only
    rw [show HEAP_BLOCK_FREE = Blk.code ⟨b.size, false⟩ from rfl, haddr]
    exact h''
  · rw [hused', hused, usedAddrs_append, usedAddrs_cons_free rfl]

/-! ## `malloc` -/

/-- The block is taken whole. -/
def TakenWhole (sz : Nat) (b : Blk) : Prop :=
  b.used = false ∧ b.size > add32 sz HEADER_SIZE ∧
    b.size ≤ add32 sz (HEADER_SIZE * 2)

/-- The block is taken and split. -/
def TakenSplit (sz : Nat) (b : Blk) : Prop :=
  b.used = false ∧ ¬ TakenWhole sz b ∧ b.size > add32 sz (HEADER_SIZE * 2)

/-- The loop passes the block by. -/
def Passed (sz : Nat) (b : Blk) : Prop :=
  ¬ TakenWhole sz b ∧ ¬ TakenSplit sz b

instance (sz : Nat) (b : Blk) : Decidable (TakenWhole sz b) :=
  inferInstanceAs (Decidable (_ ∧ _))

instance (sz : Nat) (b : Blk) : Decidable (TakenSplit sz b) :=
  inferInstanceAs (Decidable (_ ∧ _))

/-- What the loop does at one block. -/
theorem mallocLoop_step {sz fuel a nx : Nat} (ha : 0 < a)
    (h : Header m a b nx) :
    mallocLoop m sz (fuel + 1) a =
      if TakenWhole sz b then
        some (MiniCrt.setType m a HEAP_BLOCK_USED, add32 a HEADER_SIZE)
      else if TakenSplit sz b then
        some (splitBlock m a sz, add32 a HEADER_SIZE)
      else mallocLoop m sz fuel nx := by
  have ha' : ¬ a = 0 := by omega
  rw [mallocLoop, if_neg ha', h.type_eq, h.size_eq, h.next_eq]
  cases hb : b.used with
  | true =>
      rw [if_pos (Blk.code_used hb), if_neg (by simp [TakenWhole, hb]),
        if_neg (by simp [TakenSplit, hb])]
  | false =>
      have hne : ¬ b.code = HEAP_BLOCK_USED := by
        rw [Blk.code_free hb]
        decide
      rw [if_neg hne]
      by_cases hwhole : TakenWhole sz b
      · rw [if_pos hwhole, if_pos hwhole.2]
      · rw [if_neg hwhole, if_neg fun hc => hwhole ⟨hb, hc⟩]
        by_cases hsplit : TakenSplit sz b
        · rw [if_pos hsplit, if_pos hsplit.2.2]
        · rw [if_neg hsplit, if_neg fun hc => hsplit ⟨hb, hwhole, hc⟩]

/-- The loop finds the first block it does not pass by. -/
theorem mallocLoop_spec {sz : Nat} : ∀ {bs : List Blk} {a fuel : Nat},
    Tiles m 0 a bs → 0 < a → bs.length < fuel →
    ((∀ c ∈ bs, Passed sz c) ∧
      mallocLoop m sz fuel (if bs = [] then 0 else a) = some (m, 0)) ∨
    ∃ xs b ys, bs = xs ++ b :: ys ∧ (∀ c ∈ xs, Passed sz c) ∧
      ((TakenWhole sz b ∧ mallocLoop m sz fuel a =
          some (MiniCrt.setType m (a + total xs) HEAP_BLOCK_USED,
            add32 (a + total xs) HEADER_SIZE)) ∨
       (TakenSplit sz b ∧ mallocLoop m sz fuel a =
          some (splitBlock m (a + total xs) sz,
            add32 (a + total xs) HEADER_SIZE))) := by
  intro bs
  induction bs with
  | nil =>
      intro a fuel _ _ hf
      obtain ⟨k, rfl⟩ : ∃ k, fuel = k + 1 := ⟨fuel - 1, by omega⟩
      exact Or.inl ⟨by simp, rfl⟩
  | cons b bs ih =>
      intro a fuel h ha hf
      obtain ⟨k, rfl⟩ : ∃ k, fuel = k + 1 := ⟨fuel - 1, by omega⟩
      have hstep := @mallocLoop_step m b sz k a _ ha h.1
      rw [if_neg (by simp : ¬ b :: bs = [])]
      by_cases hwhole : TakenWhole sz b
      · refine Or.inr ⟨[], b, bs, rfl, by simp, Or.inl ⟨hwhole, ?_⟩⟩
        rw [hstep, if_pos hwhole]
        rfl
      · by_cases hsplit : TakenSplit sz b
        · refine Or.inr ⟨[], b, bs, rfl, by simp, Or.inr ⟨hsplit, ?_⟩⟩
          rw [hstep, if_neg hwhole, if_pos hsplit]
          rfl
        · rw [if_neg hwhole, if_neg hsplit] at hstep
          have hroom := h.1.room
          rcases ih h.2 (by omega : 0 < a + b.size)
            (by simp only [List.length_cons] at hf; omega : bs.length < k) with
            ⟨hpass, hrun⟩ | ⟨xs, c, ys, rfl, hpass, htaken⟩
          · refine Or.inl ⟨?_, by rw [hstep, hrun]⟩
            intro c hc
            rcases List.mem_cons.mp hc with rfl | hc
            · exact ⟨hwhole, hsplit⟩
            · exact hpass c hc
          · refine Or.inr ⟨b :: xs, c, ys, rfl, ?_, ?_⟩
            · intro d hd
              rcases List.mem_cons.mp hd with rfl | hd
              · exact ⟨hwhole, hsplit⟩
              · exact hpass d hd
            · rw [if_neg (by simp : ¬ xs ++ c :: ys = [])] at hstep
              rw [hstep, total_cons, ← Nat.add_assoc]
              exact htaken

theorem splitBlock_spec {sz : Nat} (h : Heaped base m (xs ++ b :: ys))
    (hpos : 0 < sz) (hroom : sz + HEADER_SIZE * 2 < b.size) :
    Heaped base (splitBlock m (base + total xs) sz)
      (xs ++ ⟨sz + HEADER_SIZE, true⟩ ::
        ⟨b.size - (sz + HEADER_SIZE), false⟩ :: ys) := by
  have hh := h.header
  have hbound := h.bound
  have hsize := hh.size_eq
  have hnext := hh.next_eq
  have hfree := HEAP_BLOCK_FREE_lt
  have hused := HEAP_BLOCK_USED_lt
  simp only [HEADER_SIZE] at hroom ⊢
  simp only [size, next] at hsize hnext
  have hsz : add32 sz 16 = sz + 16 := by
    rw [add32]
    omega
  have hnxt : add32 (base + total xs) (sz + 16) =
      base + total xs + (sz + 16) := by
    rw [add32]
    omega
  have hrest : (b.size + (2 ^ 32 - (sz + 16))) % 2 ^ 32 =
      b.size - (sz + 16) := by omega
  have hlt : (if ys = [] then 0 else base + total xs + b.size) < 2 ^ 32 := by
    split <;> omega
  refine @Heaped.splice base m _ xs ys [b] [⟨sz + 16, true⟩,
    ⟨b.size - (sz + 16), false⟩] h (by simp) (by simp) ?_ ⟨?_, ?_, trivial⟩ ?_ ?_
  · simp only [total_cons, total_nil]
    omega
  · rw [if_neg (by simp)]
    refine ⟨?_, ?_, ?_, ?_⟩
    · show 16 < sz + 16
      omega
    · exact ByteMem.load32_store32_same hused
    all_goals
      simp (disch := omega) only [splitBlock, size, next,
        MiniCrt.setType, MiniCrt.setSize, MiniCrt.setNext, MiniCrt.setPrev,
        HEADER_SIZE, hsz, hnxt, ByteMem.load32_store32_same,
        ByteMem.load32_store32_apart]
  · rw [if_pos rfl]
    refine ⟨?_, ?_, ?_, ?_⟩
    · show 16 < b.size - (sz + 16)
      omega
    all_goals
      simp (disch := omega) only [splitBlock, type, size, next,
        MiniCrt.setType, MiniCrt.setSize, MiniCrt.setNext, MiniCrt.setPrev,
        HEADER_SIZE, hsz, hnxt, hsize, hrest, hnext,
        ByteMem.load32_store32_same, ByteMem.load32_store32_apart]
    · rfl
    · simp only [total_cons, total_nil, Nat.add_zero]
  · intro i _ hi
    simp (disch := omega) only [splitBlock, MiniCrt.setType, MiniCrt.setSize,
      MiniCrt.setNext, MiniCrt.setPrev, HEADER_SIZE, hsz, hnxt,
      ByteMem.store32_apart]
  · intro i hi _ _
    simp only [total_cons, total_nil, Nat.add_zero] at hi
    simp (disch := omega) only [splitBlock, MiniCrt.setType, MiniCrt.setSize,
      MiniCrt.setNext, MiniCrt.setPrev, HEADER_SIZE, hsz, hnxt,
      ByteMem.store32_apart]

/-- `malloc` of a size that is no larger than the heap: it fails and changes
nothing, or it takes the first block that fits, whole or split. -/
theorem malloc_cases {heap : Heap} {sz : Nat} (h : Heaped base heap.mem bs)
    (hlist : heap.listHead = base) (hsz : sz ≤ heapSize) :
    ((sz = 0 ∨ ∀ c ∈ bs, Passed sz c) ∧ malloc heap sz = some (heap, 0)) ∨
    ∃ xs b ys, bs = xs ++ b :: ys ∧ sz ≠ 0 ∧ (∀ c ∈ xs, Passed sz c) ∧
      ((TakenWhole sz b ∧ malloc heap sz = some
          (⟨MiniCrt.setType heap.mem (base + total xs) HEAP_BLOCK_USED,
            heap.listHead⟩, base + total xs + HEADER_SIZE)) ∨
       (TakenSplit sz b ∧ sz + HEADER_SIZE * 2 < b.size ∧
        malloc heap sz = some
          (⟨splitBlock heap.mem (base + total xs) sz, heap.listHead⟩,
            base + total xs + HEADER_SIZE))) := by
  by_cases h0 : sz = 0
  · exact Or.inl ⟨Or.inl h0, by rw [malloc, if_pos h0]⟩
  have hne : bs ≠ [] := by
    rintro rfl
    exact absurd h.covers (by decide)
  have hfuel : bs.length < 2 ^ 32 + 1 := by
    have := h.tiles.length_le
    have := h.covers
    have := h.fits
    omega
  have hcode : ∀ {m' ptr}, mallocLoop heap.mem sz (2 ^ 32 + 1) base =
      some (m', ptr) →
      malloc heap sz = some ({ heap with mem := m' }, ptr) := by
    intro m' ptr hrun
    rw [malloc, if_neg h0, hlist, hrun, Option.map_some]
  have haddr : ∀ {xs b ys}, bs = xs ++ b :: ys →
      add32 (base + total xs) HEADER_SIZE = base + total xs + HEADER_SIZE := by
    rintro xs b ys rfl
    have hbound := h.bound
    have hroom := h.header.room
    rw [add32]
    omega
  rcases @mallocLoop_spec heap.mem sz bs base _ h.tiles h.base_pos hfuel with
    ⟨hpass, hrun⟩ | ⟨xs, b, ys, hbs, hpass, ⟨hwhole, hrun⟩ | ⟨hsplit, hrun⟩⟩
  · rw [if_neg hne] at hrun
    exact Or.inl ⟨Or.inr hpass, hcode hrun⟩
  · rw [haddr hbs] at hrun
    exact Or.inr ⟨xs, b, ys, hbs, h0, hpass, Or.inl ⟨hwhole, hcode hrun⟩⟩
  · have hadd : add32 sz (HEADER_SIZE * 2) = sz + HEADER_SIZE * 2 := by
      simp only [add32, heapSize, HEADER_SIZE] at hsz ⊢
      omega
    have hlarge := hsplit.2.2
    rw [hadd] at hlarge
    rw [haddr hbs] at hrun
    exact Or.inr ⟨xs, b, ys, hbs, h0, hpass,
      Or.inr ⟨hsplit, hlarge, hcode hrun⟩⟩

theorem usedAddrs_whole (hb : b.used = false) :
    (usedAddrs base (xs ++ ⟨b.size, true⟩ :: ys)).Perm
      ((base + total xs) :: usedAddrs base (xs ++ b :: ys)) := by
  rw [usedAddrs_append, usedAddrs_append, usedAddrs_cons_used rfl,
    usedAddrs_cons_free hb]
  exact List.perm_middle

theorem usedAddrs_split {sz : Nat} (hb : b.used = false) (hsz : sz ≤ b.size) :
    (usedAddrs base (xs ++ ⟨sz, true⟩ :: ⟨b.size - sz, false⟩ :: ys)).Perm
      ((base + total xs) :: usedAddrs base (xs ++ b :: ys)) := by
  have haddr : base + total xs + sz + (b.size - sz) =
      base + total xs + b.size := by omega
  rw [usedAddrs_append, usedAddrs_append, usedAddrs_cons_used rfl,
    usedAddrs_cons_free rfl, usedAddrs_cons_free hb]
  show (_ ++ _ :: usedAddrs (base + total xs + sz + (b.size - sz)) ys).Perm _
  rw [haddr]
  exact List.perm_middle

theorem malloc_spec {heap : Heap} {sz : Nat} (h : Heaped base heap.mem bs)
    (hlist : heap.listHead = base) (hsz : sz ≤ heapSize) :
    ∃ heap' ptr bs', malloc heap sz = some (heap', ptr) ∧
      Heaped base heap'.mem bs' ∧ heap'.listHead = base ∧
      ((ptr = 0 ∧ usedAddrs base bs' = usedAddrs base bs) ∨
        ∃ a, ptr = a + HEADER_SIZE ∧
          (usedAddrs base bs').Perm (a :: usedAddrs base bs)) := by
  rcases malloc_cases h hlist hsz with ⟨-, hrun⟩ |
    ⟨xs, b, ys, rfl, h0, -, ⟨hwhole, hrun⟩ | ⟨hsplit, hlarge, hrun⟩⟩
  · exact ⟨_, 0, bs, hrun, h, hlist, Or.inl ⟨rfl, rfl⟩⟩
  · exact ⟨_, _, xs ++ ⟨b.size, true⟩ :: ys, hrun, h.setType true, hlist,
      Or.inr ⟨base + total xs, rfl, usedAddrs_whole hwhole.1⟩⟩
  · exact ⟨_, _, _, hrun, splitBlock_spec h (by omega) hlarge, hlist,
      Or.inr ⟨base + total xs, rfl, usedAddrs_split hsplit.1 (by omega)⟩⟩

end LearningLinux.MiniCrt
