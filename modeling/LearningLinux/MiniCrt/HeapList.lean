import LearningLinux.MiniCrt.Links

/-!
# When the block list stays in order

Two branches rewrite the list without telling the block behind. `malloc`
splits a block and leaves the `prev` of the block behind the new half at the
first half; `free` joins a block with the next one and leaves the `prev` of
the block behind at the header that is gone. Where there is no block behind,
nothing is forgotten. So the list stays in order exactly along the runs in
which only the last block is ever split, and only the last block is ever
joined to the one in front of it by the second `if` of `free`.
-/

namespace LearningLinux.MiniCrt

open Lib

variable {base : Nat} {m m' : ByteMem} {b p : Blk} {bs xs ys : List Blk}

/-! ## Separation of lists -/

theorem Separated.used (h : Separated (xs ++ b :: ys)) (s : Nat) :
    Separated (xs ++ ⟨s, true⟩ :: ys) := by
  obtain ⟨hxs, hys, -⟩ := List.isChain_append.mp h
  refine List.isChain_append.mpr ⟨hxs, ?_, ?_⟩
  · cases ys with
    | nil => exact List.isChain_singleton _
    | cons c ys =>
        exact List.isChain_cons_cons.mpr
          ⟨Or.inl rfl, (List.isChain_cons_cons.mp hys).2⟩
  · intro x _ y hy
    cases hy
    exact Or.inr rfl

/-- A free block put in the place of another. -/
theorem Separated.resize {c : Blk} (h : Separated (xs ++ b :: ys))
    (hb : b.used = c.used) : Separated (xs ++ c :: ys) := by
  obtain ⟨hxs, hys, hjoin⟩ := List.isChain_append.mp h
  refine List.isChain_append.mpr ⟨hxs, ?_, ?_⟩
  · cases ys with
    | nil => exact List.isChain_singleton _
    | cons d ys =>
        obtain ⟨hbd, hrest⟩ := List.isChain_cons_cons.mp hys
        rw [hb] at hbd
        exact List.isChain_cons_cons.mpr ⟨hbd, hrest⟩
  · intro x hx y hy
    cases hy
    rw [← hb]
    exact hjoin x hx b rfl

/-- A free block behind a used one, at the end. -/
theorem Separated.concat (h : Separated (xs ++ [b])) (hb : b.used = true)
    (c : Blk) : Separated (xs ++ [b, c]) :=
  List.isChain_append_cons_cons.mpr
    ⟨h, Or.inl hb, List.isChain_singleton _⟩

/-! ## Links under the operations -/

theorem Linked.setType (hl : Linked m 0 base (xs ++ b :: ys))
    (h : Heaped base m (xs ++ b :: ys)) (u : Bool) (v : Nat) :
    Linked (setType m (base + total xs) v) 0 base
      (xs ++ ⟨b.size, u⟩ :: ys) := by
  have hroom : 16 < b.size := h.header.room
  have hprev : ∀ x, base + total xs ≤ x →
      prev (MiniCrt.setType m (base + total xs) v) x = prev m x := fun x hx =>
    ByteMem.load32_store32_apart (by omega)
  refine @Linked.splice base 0 0 m _ xs ys [b] [⟨b.size, u⟩] hl h.tiles
    (by simp) ⟨?_, trivial⟩ ?_ ?_ ?_
  · rw [hprev _ (Nat.le_refl _)]
    exact (linked_append.mp hl).2.1
  · intro i _ hi
    exact ByteMem.store32_apart (by omega)
  · intro i hi _
    exact ByteMem.store32_apart (by omega)
  · intro hys
    cases ys with
    | nil => exact absurd rfl hys
    | cons c ys =>
        simp only [total_cons, total_nil, Nat.add_zero]
        rw [hprev _ (by omega), hl.prev_at]
        rfl

theorem splitBlock_prev {sz : Nat} (h : Heaped base m (xs ++ b :: ys))
    (hroom : sz + HEADER_SIZE * 2 < b.size) {x : Nat}
    (hx : x = base + total xs ∨ base + total xs + b.size ≤ x) :
    prev (splitBlock m (base + total xs) sz) x = prev m x := by
  have hbound := h.bound
  simp only [HEADER_SIZE] at hroom
  have hsz : add32 sz 16 = sz + 16 := by
    rw [add32]
    omega
  have hnxt : add32 (base + total xs) (sz + 16) =
      base + total xs + (sz + 16) := by
    rw [add32]
    omega
  simp (disch := omega) only [splitBlock, prev, MiniCrt.setType,
    MiniCrt.setSize, MiniCrt.setNext, MiniCrt.setPrev, HEADER_SIZE, hsz, hnxt,
    ByteMem.load32_store32_apart]

theorem splitBlock_prev_new {sz : Nat} (h : Heaped base m (xs ++ b :: ys))
    (hroom : sz + HEADER_SIZE * 2 < b.size) :
    prev (splitBlock m (base + total xs) sz)
      (base + total xs + (sz + HEADER_SIZE)) = base + total xs := by
  have hbound := h.bound
  simp only [HEADER_SIZE] at hroom ⊢
  have hsz : add32 sz 16 = sz + 16 := by
    rw [add32]
    omega
  have hnxt : add32 (base + total xs) (sz + 16) =
      base + total xs + (sz + 16) := by
    rw [add32]
    omega
  simp (disch := omega) only [splitBlock, prev, MiniCrt.setType,
    MiniCrt.setSize, MiniCrt.setNext, MiniCrt.setPrev, HEADER_SIZE, hsz, hnxt,
    ByteMem.load32_store32_apart, ByteMem.load32_store32_same]

/-- Splitting the last block. -/
theorem splitBlock_chained {sz : Nat} (h : Chained base m (xs ++ [b]))
    (hpos : 0 < sz) (hroom : sz + HEADER_SIZE * 2 < b.size) :
    Chained base (splitBlock m (base + total xs) sz)
      (xs ++ [⟨sz + HEADER_SIZE, true⟩,
        ⟨b.size - (sz + HEADER_SIZE), false⟩]) where
  heaped := splitBlock_spec h.heaped hpos hroom
  linked := by
    refine linked_append.mpr ⟨?_, ?_, ?_, trivial⟩
    · refine (linked_append.mp h.linked).1.congr
        (tiles_append.mp h.heaped.tiles).1 ?_
      intro i _ hi
      have hbound := h.heaped.bound
      simp only [HEADER_SIZE] at hroom
      have hsz : add32 sz 16 = sz + 16 := by
        rw [add32]
        omega
      have hnxt : add32 (base + total xs) (sz + 16) =
          base + total xs + (sz + 16) := by
        rw [add32]
        omega
      simp (disch := omega) only [splitBlock, MiniCrt.setType,
        MiniCrt.setSize, MiniCrt.setNext, MiniCrt.setPrev, HEADER_SIZE, hsz,
        hnxt, ByteMem.store32_apart]
    · rw [splitBlock_prev h.heaped hroom (Or.inl rfl)]
      exact (linked_append.mp h.linked).2.1
    · exact splitBlock_prev_new h.heaped hroom
  separated := (h.separated.used (sz + HEADER_SIZE)).concat rfl _

theorem joined_prev {q nx sz : Nat} (hq : q < 2 ^ 32) (hnx : nx ≠ 0) :
    nx + 16 ≤ q ∨ q + 16 ≤ nx → prev (joined m q nx sz) nx = q := by
  intro h
  rw [joined, prev, MiniCrt.setSize, ByteMem.load32_store32_apart (by omega),
    if_neg hnx]
  exact ByteMem.load32_store32_same hq

/-- The links after two neighbours have become one: the backward link of the
first stays, and the block behind points to it. -/
theorem Linked.join {c : Blk} (hl : Linked m 0 base (xs ++ p :: c :: ys))
    (h : Heaped base m (xs ++ p :: c :: ys))
    (hsame : ∀ i, i < base + total xs + 4 ∨ base + total xs + 12 ≤ i →
      i < base + total xs + p.size + c.size + 12 ∨
        base + total xs + p.size + c.size + 16 ≤ i → m'.byte i = m.byte i)
    (hprev : ys ≠ [] → prev m' (base + total xs + p.size + c.size) =
      base + total xs) (u : Bool) :
    Linked m' 0 base (xs ++ ⟨p.size + c.size, u⟩ :: ys) := by
  have hroom : 16 < p.size := h.header.room
  refine @Linked.splice base 0 0 m _ xs ys [p, c] [⟨p.size + c.size, u⟩] hl
    h.tiles (by simp) ⟨?_, trivial⟩ ?_ ?_ ?_
  · rw [prev_congr fun i _ _ => hsame i (by omega) (by omega)]
    exact (linked_append.mp hl).2.1
  · intro i _ hi
    exact hsame i (by omega) (by omega)
  · intro i hi _
    simp only [total_cons, total_nil, Nat.add_zero] at hi
    exact hsame i (by omega) (by omega)
  · intro hys
    simp only [total_cons, total_nil, Nat.add_zero]
    rw [← Nat.add_assoc]
    exact hprev hys

/-! ## `free` -/

/-- The links say which block is in front. -/
theorem Linked.inOrder (hl : Linked m 0 base (xs ++ b :: ys)) :
    MergesInOrder base m xs := by
  intro hne _
  have hprev : prev m (base + total xs) = lastAddr 0 base xs :=
    (linked_append.mp hl).2.1
  rcases List.eq_nil_or_concat xs with rfl | ⟨xs', p, rfl⟩
  · exact absurd hprev hne
  · rw [List.concat_eq_append] at hprev ⊢
    rw [lastAddr_concat] at hprev
    exact ⟨xs', p, rfl, hprev⟩

/-- The first merge keeps the links and leaves a free block with no free one
in front of it. -/
theorem mergePrev_linked (h : Heaped base m (xs ++ b :: ys))
    (hl : Linked m 0 base (xs ++ b :: ys)) (hb : b.used = false)
    (hs : Separated xs) :
    ∃ xs' b', (mergePrev m (base + total xs)).2 = base + total xs' ∧
      b'.used = false ∧
      Heaped base (mergePrev m (base + total xs)).1 (xs' ++ b' :: ys) ∧
      Linked (mergePrev m (base + total xs)).1 0 base (xs' ++ b' :: ys) ∧
      usedAddrs base (xs' ++ b' :: ys) = usedAddrs base (xs ++ b :: ys) ∧
      Separated (xs' ++ [b']) := by
  by_cases hcond : prev m (base + total xs) ≠ 0 ∧
      type m (prev m (base + total xs)) = HEAP_BLOCK_FREE
  · obtain ⟨xs', p, rfl, hprev⟩ := hl.inOrder hcond.1 hcond.2
    rw [List.append_assoc, List.singleton_append] at h hl ⊢
    have haddr : base + total (xs' ++ [p]) = base + total xs' + p.size := by
      simp only [total_append, total_cons, total_nil]
      omega
    rw [hprev, h.header.type_eq] at hcond
    have hp := Blk.free_of_code hcond.2
    have hbound := h.bound
    have hroom : 16 < p.size := h.header.room
    rw [haddr] at hprev ⊢
    rw [mergePrev_join h hp hprev]
    refine ⟨xs', ⟨p.size + b.size, false⟩, rfl, rfl, h.joined hp, ?_,
      usedAddrs_join hp hb base, hs.resize hp⟩
    refine hl.join h (fun i h₁ h₂ => joined_same _ h₁ h₂) (fun hys => ?_) false
    rw [if_neg hys]
    exact joined_prev (by omega) (by omega) (by omega)
  · rw [mergePrev, if_neg hcond]
    refine ⟨xs, b, rfl, hb, h, hl, rfl, ?_⟩
    rcases List.eq_nil_or_concat xs with rfl | ⟨xs', p, rfl⟩
    · exact List.isChain_singleton _
    · rw [List.concat_eq_append] at *
      have hpos := h.base_pos
      have hprev : prev m (base + total (xs' ++ [p])) = base + total xs' := by
        have hlast := (linked_append.mp hl).2.1
        rw [lastAddr_concat] at hlast
        exact hlast
      rw [List.append_assoc, List.singleton_append] at h ⊢
      have hp : p.used = true := by
        cases hu : p.used with
        | true => rfl
        | false =>
            refine absurd ⟨by omega, ?_⟩ hcond
            rw [hprev, h.header.type_eq, Blk.code_free hu]
      exact hs.concat hp b

/-- The second merge forgets the block behind the one it joins; if there is
none, the list is in order. -/
theorem mergeNext_chained (h : Heaped base m (xs ++ b :: ys))
    (hl : Linked m 0 base (xs ++ b :: ys)) (hb : b.used = false)
    (hs : Separated (xs ++ [b])) (hys : Separated ys)
    (hlast : ∀ c d zs, ys = c :: d :: zs → c.used = true) :
    ∃ bs, Chained base (mergeNext m (base + total xs)) bs ∧
      usedAddrs base bs = usedAddrs base (xs ++ b :: ys) := by
  match ys, h, hl, hys, hlast with
  | [], h, hl, _, _ =>
      rw [mergeNext_none h nofun]
      exact ⟨_, ⟨h, hl, hs⟩, rfl⟩
  | c :: ys, h, hl, hys, hlast =>
      cases hc : c.used with
      | true =>
          have hhead : ∀ d, (c :: ys).head? = some d → d.used = true := by
            intro d hd
            cases hd
            exact hc
          rw [mergeNext_none h hhead]
          exact ⟨_, ⟨h, hl, List.isChain_append_cons_cons.mpr
            ⟨hs, Or.inr hc, hys⟩⟩, rfl⟩
      | false =>
          have hnil : ys = [] := by
            cases ys with
            | nil => rfl
            | cons d zs =>
                rw [hlast c d zs rfl] at hc
                cases hc
          subst hnil
          rw [mergeNext_join h hc]
          refine ⟨_, ⟨h.joinedNext hb, ?_, hs.resize hb⟩,
            usedAddrs_join hb hc base⟩
          exact hl.join h (fun i h₁ _ => joinedNext_byte h₁)
            (fun hne => absurd rfl hne) false

/-- A block whose link does not lead to the one in front. -/
theorem not_listOk {heap : Heap} {c : Blk}
    (h : Heaped base heap.mem (xs ++ b :: c :: ys))
    (hlist : heap.listHead = base)
    (hprev : prev heap.mem (base + total xs + b.size) ≠ base + total xs) :
    ¬ ListOk base heap := by
  intro hok
  have hpos := h.base_pos
  have hnext : next heap.mem (base + total xs) = base + total xs + b.size := by
    rw [h.header.next_eq, if_neg (by simp)]
  have hmem : base + total xs ∈ blocks heap := by
    rw [h.blocks_eq hlist]
    exact mem_addrs.mpr ⟨xs, b, c :: ys, rfl, rfl⟩
  have hback := hok.back _ hmem (by omega)
  rw [hnext] at hback
  exact hprev hback

/-- `free`, up to its second merge. -/
theorem free_chained {heap : Heap} (h : Chained base heap.mem (xs ++ b :: ys))
    (hb : b.used = true) :
    ∃ m₁ xs' b', free heap (base + total xs + HEADER_SIZE) =
        ⟨mergeNext m₁ (base + total xs'), heap.listHead⟩ ∧ b'.used = false ∧
      Heaped base m₁ (xs' ++ b' :: ys) ∧
      Linked m₁ 0 base (xs' ++ b' :: ys) ∧ Separated (xs' ++ [b']) ∧
      usedAddrs base (xs' ++ b' :: ys) =
        usedAddrs base xs ++ usedAddrs (base + total xs + b.size) ys := by
  have hh := h.heaped.header
  have hbound := h.heaped.bound
  have hroom := hh.room
  have htype : type heap.mem (base + total xs) = HEAP_BLOCK_USED := by
    rw [hh.type_eq, Blk.code_used hb]
  have hsep : Separated xs := (List.isChain_append.mp h.separated).1
  obtain ⟨xs', b', haddr, hb', h', hl', hused, hs'⟩ :=
    mergePrev_linked (h.heaped.setType false)
      (h.linked.setType h.heaped false _) rfl hsep
  refine ⟨_, xs', b', ?_, hb', h', hl', hs', ?_⟩
  · rw [free, headerOf_payload (by omega), if_neg (by simp [htype])]
    show (⟨mergeNext (mergePrev _ _).1 (mergePrev _ _).2, _⟩ : Heap) = _
    rw [show HEAP_BLOCK_FREE = Blk.code ⟨b.size, false⟩ from rfl, haddr]
  · rw [hused, usedAddrs_append, usedAddrs_cons_free rfl]

/-! ## The condition -/

/-- The test of `malloc` for a block it can take. -/
def fits (m : ByteMem) (sz h : Nat) : Bool :=
  type m h ≠ HEAP_BLOCK_USED && size m h > add32 sz HEADER_SIZE

/-- If `malloc(sz)` finds a block it will split, that is the last one. -/
def SplitsLast (heap : Heap) (sz : Nat) : Prop :=
  sz ≠ 0 → ∀ h ∈ (blocks heap).find? (fits heap.mem sz),
    size heap.mem h > add32 sz (HEADER_SIZE * 2) → next heap.mem h = 0

/-- If the block behind the one to be freed is free, it is the last one. -/
def MergesLast (heap : Heap) (ptr : Nat) : Prop :=
  let h := headerOf ptr
  next heap.mem h ≠ 0 → type heap.mem (next heap.mem h) = HEAP_BLOCK_FREE →
    next heap.mem (next heap.mem h) = 0

def Patched (st : St) : Op → Prop
  | .malloc sz => SplitsLast st.heap sz
  | .free ptr => MergesLast st.heap ptr

theorem fits_iff {a nx sz : Nat} (h : Header m a b nx) (hsz : sz ≤ heapSize) :
    fits m sz a = true ↔ ¬ Passed sz b := by
  have h16 : add32 sz HEADER_SIZE = sz + 16 := by
    simp only [add32, heapSize, HEADER_SIZE] at hsz ⊢
    omega
  have h32 : add32 sz (HEADER_SIZE * 2) = sz + 32 := by
    simp only [add32, heapSize, HEADER_SIZE] at hsz ⊢
    omega
  rw [fits, h.type_eq, h.size_eq, Passed, TakenSplit, TakenWhole, h16, h32]
  cases hb : b.used with
  | true => simp [Blk.code_used hb]
  | false =>
      have hne : HEAP_BLOCK_FREE ≠ HEAP_BLOCK_USED := by decide
      simp only [Blk.code_free hb, ne_eq, hne, not_false_eq_true,
        decide_true, Bool.true_and, decide_eq_true_eq, true_and]
      omega

theorem find_fits {sz : Nat} (hsz : sz ≤ heapSize) :
    ∀ {xs : List Blk} {a : Nat}, Tiles m 0 a (xs ++ b :: ys) →
    (∀ c ∈ xs, Passed sz c) → ¬ Passed sz b →
    (addrs a (xs ++ b :: ys)).find? (fits m sz) = some (a + total xs) := by
  intro xs
  induction xs with
  | nil =>
      intro a h _ hb
      rw [List.nil_append, addrs, List.find?_cons_of_pos
        ((fits_iff h.1 hsz).mpr hb)]
      rfl
  | cons c xs ih =>
      intro a h hpass hb
      have hc : ¬ fits m sz a = true := by
        rw [fits_iff h.1 hsz, not_not]
        exact hpass c (by simp)
      rw [List.cons_append, addrs, List.find?_cons_of_neg hc,
        ih h.2 (fun d hd => hpass d (by simp [hd])) hb, total_cons,
        Nat.add_assoc]

/-- What the condition says where the block that `malloc` takes is known. -/
theorem splitsLast_iff {heap : Heap} {sz : Nat}
    (h : Heaped base heap.mem (xs ++ b :: ys))
    (hlist : heap.listHead = base) (hsz : sz ≤ heapSize) (h0 : sz ≠ 0)
    (hpass : ∀ c ∈ xs, Passed sz c) (hb : ¬ Passed sz b) :
    SplitsLast heap sz ↔ (b.size > add32 sz (HEADER_SIZE * 2) → ys = []) := by
  have hpos := h.base_pos
  have hroom := h.header.room
  have hnext : next heap.mem (base + total xs) = 0 ↔ ys = [] := by
    rw [h.header.next_eq]
    split
    · next hys => simp [hys]
    · next hys =>
        simp only [hys, iff_false]
        omega
  rw [SplitsLast, h.blocks_eq hlist, find_fits hsz h.tiles hpass hb]
  simp only [Option.mem_some_iff, forall_eq', h.header.size_eq, hnext]
  exact ⟨fun hall => hall h0, fun hall _ => hall⟩

theorem mergesLast_iff {heap : Heap}
    (h : Heaped base heap.mem (xs ++ b :: ys)) :
    MergesLast heap (base + total xs + HEADER_SIZE) ↔
      ∀ c d zs, ys = c :: d :: zs → c.used = true := by
  have hbound := h.bound
  have hroom := h.header.room
  have hpos := h.base_pos
  have hnx := h.header.next_eq
  rw [MergesLast, headerOf_payload (by omega)]
  match ys, h, hnx with
  | [], _, hnx =>
      rw [if_pos rfl] at hnx
      simp [hnx]
  | [c], h, hnx =>
      rw [if_neg (by simp)] at hnx
      rw [hnx, h.header_next.next_eq]
      simp
  | c :: d :: zs, h, hnx =>
      have hroomc : HEADER_SIZE < c.size := h.header_next.room
      rw [if_neg (by simp)] at hnx
      rw [hnx, h.header_next.next_eq, h.header_next.type_eq, if_neg (by simp)]
      constructor
      · intro hmerge c' d' zs' heq
        cases heq
        cases hu : c.used with
        | true => rfl
        | false =>
            have := hmerge (by omega) (Blk.code_free hu)
            omega
      · intro hused _ hfree
        rw [Blk.code_used (hused c d zs rfl)] at hfree
        exact absurd hfree (by decide)

/-! ## Runs -/

/-- The list is in order, and when nothing is allocated it is one block. -/
def HeapListOk (base : Nat) (st : St) : Prop :=
  ListOk base st.heap ∧ (st.live = [] → AllFree base st.heap)

def ChainInv (base : Nat) (st : St) : Prop :=
  st.heap.listHead = base ∧ ∃ bs, Chained base st.heap.mem bs ∧
    ((usedAddrs base bs).map (· + HEADER_SIZE)).Perm st.live

theorem ChainInv.listOk {st : St} (h : ChainInv base st) :
    HeapListOk base st := by
  obtain ⟨hlist, bs, hc, hperm⟩ := h
  refine ⟨hc.listOk hlist, fun hlive => hc.allFree hlist ?_⟩
  rw [hlive] at hperm
  exact List.map_eq_nil_iff.mp hperm.eq_nil

/-- One call, from a list in order: the list stays in order if the call meets
the condition, and it does not if the call does not. -/
theorem ChainInv.malloc {st : St} {sz : Nat} (h : ChainInv base st)
    (hsz : sz ≤ heapSize) :
    ∃ st', step st (.malloc sz) = some st' ∧
      (SplitsLast st.heap sz → ChainInv base st') ∧
      (¬ SplitsLast st.heap sz → ¬ ListOk base st'.heap) := by
  obtain ⟨hlist, bs, hc, hperm⟩ := h
  have hstep : ∀ {heap' ptr}, MiniCrt.malloc st.heap sz = some (heap', ptr) →
      step st (.malloc sz) =
        some ⟨heap', if ptr = 0 then st.live else ptr :: st.live⟩ := by
    intro heap' ptr hrun
    rw [step, hrun, Option.map_some]
  rcases malloc_cases hc.heaped hlist hsz with ⟨hfail, hrun⟩ |
    ⟨xs, b, ys, rfl, h0, hpass, htaken⟩
  · refine ⟨_, hstep hrun, fun _ => ⟨hlist, bs, hc, hperm⟩, fun hno => ?_⟩
    refine absurd (fun h0 => ?_) hno
    intro x hx
    rw [hc.heaped.blocks_eq hlist, Option.mem_def, List.find?_eq_some_iff_append]
      at hx
    obtain ⟨hfit, as, cs, hsplit, -⟩ := hx
    have hmem : x ∈ addrs base bs := by
      rw [hsplit]
      simp
    obtain ⟨xs, b, ys, rfl, rfl⟩ := mem_addrs.mp hmem
    have hpass := (hfail.resolve_left h0) b (by simp)
    exact absurd hpass ((fits_iff hc.heaped.header hsz).mp hfit)
  · have hlive : ∀ {heap' bs'}, Chained base heap'.mem bs' →
        heap'.listHead = base →
        (usedAddrs base bs').Perm
          ((base + total xs) :: usedAddrs base (xs ++ b :: ys)) →
        ChainInv base ⟨heap', if base + total xs + HEADER_SIZE = 0 then st.live
          else (base + total xs + HEADER_SIZE) :: st.live⟩ := by
      intro heap' bs' hc' hlist' hused
      have hne : ¬ base + total xs + HEADER_SIZE = 0 := by
        simp only [HEADER_SIZE]
        omega
      refine ⟨hlist', bs', hc', ?_⟩
      rw [if_neg hne]
      exact (hused.map _).trans (hperm.cons _)
    rcases htaken with ⟨hwhole, hrun⟩ | ⟨hsplit, hlarge, hrun⟩
    · have hb : ¬ Passed sz b := fun hp => hp.1 hwhole
      have hcond := splitsLast_iff hc.heaped hlist hsz h0 hpass hb
      refine ⟨_, hstep hrun, fun _ => ?_, fun hno => ?_⟩
      · exact @hlive _ (xs ++ ⟨b.size, true⟩ :: ys)
          ⟨hc.heaped.setType true, hc.linked.setType hc.heaped true _,
            hc.separated.used _⟩ hlist (usedAddrs_whole hwhole.1)
      refine absurd (hcond.mpr fun hgt => ?_) hno
      have hle := hwhole.2.2
      omega
    · have hb : ¬ Passed sz b := fun hp => hp.2 hsplit
      have hcond := splitsLast_iff hc.heaped hlist hsz h0 hpass hb
      refine ⟨_, hstep hrun, fun hyes => ?_, fun hno => ?_⟩
      · have hys := hcond.mp hyes hsplit.2.2
        subst hys
        exact hlive (splitBlock_chained hc (by omega) hlarge) hlist
          (usedAddrs_split hsplit.1 (by omega))
      · cases ys with
        | nil => exact absurd (hcond.mpr fun _ => rfl) hno
        | cons c ys =>
            have hheap := splitBlock_spec hc.heaped (by omega) hlarge
            simp only [HEADER_SIZE] at hlarge hheap
            have haddr : base + total (xs ++ [⟨sz + 16, true⟩]) +
                (b.size - (sz + 16)) = base + total xs + b.size := by
              simp only [total_append, total_cons, total_nil]
              omega
            refine @not_listOk base ⟨b.size - (sz + 16), false⟩
              (xs ++ [⟨sz + 16, true⟩]) ys _ c ?_ hlist ?_
            · rw [List.append_assoc, List.singleton_append]
              exact hheap
            · rw [haddr, splitBlock_prev hc.heaped hlarge
                (Or.inr (Nat.le_refl _)), hc.linked.prev_at]
              simp only [total_append, total_cons, total_nil]
              omega

theorem ChainInv.free {st : St} {ptr : Nat} (h : ChainInv base st)
    (hptr : ptr ∈ st.live) :
    (MergesLast st.heap ptr →
      ChainInv base ⟨MiniCrt.free st.heap ptr, st.live.erase ptr⟩) ∧
    (¬ MergesLast st.heap ptr →
      ¬ ListOk base (MiniCrt.free st.heap ptr)) := by
  obtain ⟨hlist, bs, hc, hperm⟩ := h
  obtain ⟨a, hmem, rfl⟩ := List.mem_map.mp (hperm.mem_iff.mpr hptr)
  obtain ⟨xs, b, ys, rfl, hb, rfl⟩ := exists_of_mem_usedAddrs hmem
  obtain ⟨m₁, xs', b', hrun, hb', h', hl', hs', hused⟩ := free_chained hc hb
  have hys : Separated ys := by
    have hsep := (List.isChain_append.mp hc.separated).2.1
    exact hsep.tail
  rw [mergesLast_iff hc.heaped, hrun]
  refine ⟨fun hyes => ?_, fun hno => ?_⟩
  · obtain ⟨bs', hc', hused'⟩ := mergeNext_chained h' hl' hb' hs' hys hyes
    refine ⟨hlist, bs', hc', ?_⟩
    rw [hused', hused]
    have hperm' := hperm.erase (base + total xs + HEADER_SIZE)
    refine List.Perm.trans ?_ hperm'
    rw [usedAddrs_append, usedAddrs_cons_used hb, List.map_append,
      List.map_append, List.map_cons]
    have hcancel := (@List.perm_middle _ (base + total xs + HEADER_SIZE)
      ((usedAddrs base xs).map (· + HEADER_SIZE))
      ((usedAddrs (base + total xs + b.size) ys).map (· + HEADER_SIZE))).erase
        (base + total xs + HEADER_SIZE)
    rw [List.erase_cons_head] at hcancel
    exact hcancel.symm
  · match ys, h', hl', hno with
    | [], _, _, hno => exact absurd nofun hno
    | [c], _, _, hno => exact absurd nofun hno
    | c :: d :: zs, h', hl', hno =>
        have hcf : c.used = false := by
          rw [← Bool.not_eq_true]
          intro hu
          refine hno fun c' d' zs' heq => ?_
          cases heq
          exact hu
        have hroom : 16 < b'.size := h'.header.room
        have hroomc : 16 < c.size := h'.header_next.room
        have hjoin := h'.joinedNext hb'
        rw [mergeNext_join h' hcf]
        refine not_listOk hjoin hlist ?_
        -- the link of `d` still leads to the header of `c`
        have hlink : prev m₁ (base + total xs' + b'.size + c.size) =
            base + total xs' + b'.size :=
          (linked_append.mp hl').2.2.2.1
        rw [← Nat.add_assoc, prev_congr fun i _ _ => joinedNext_byte (by omega),
          hlink]
        omega

theorem ChainInv.step {st : St} {op : Op} (h : ChainInv base st)
    (ha : Allowed st op) :
    ∃ st', MiniCrt.step st op = some st' ∧
      (Patched st op → ChainInv base st') ∧
      (¬ Patched st op → ¬ ListOk base st'.heap) := by
  cases op with
  | malloc sz => exact h.malloc ha
  | free ptr => exact ⟨_, rfl, h.free ha⟩

theorem ChainInv.init {brk : Nat → Nat} {heap : Heap} (hbase : 0 < base)
    (hfits : base + heapSize < 2 ^ 32) (hbrk : brk (base + heapSize) ≠ 0) :
    ChainInv base ⟨(miniCrtHeapInit base brk heap).2, []⟩ := by
  rw [miniCrtHeapInit_eq hfits hbrk]
  refine ⟨rfl, [⟨heapSize, false⟩], ⟨heaped_init hbase hfits, ⟨?_, trivial⟩,
    List.isChain_singleton _⟩, List.Perm.refl []⟩
  exact ByteMem.load32_store32_same (by decide)

/-- Along the calls `ops`, as long as the caller keeps its promises, every
call returns and the list is in order before and after it. -/
def ListRun (base : Nat) : St → List Op → Prop
  | st, [] => HeapListOk base st
  | st, op :: ops =>
      HeapListOk base st ∧ (Allowed st op →
        match MiniCrt.step st op with
        | none => False
        | some st' => ListRun base st' ops)

/-- Along the calls `ops`, no branch that forgets a backward link has one to
forget. -/
def PatchedRun : St → List Op → Prop
  | _, [] => True
  | st, op :: ops =>
      Allowed st op → Patched st op ∧
        match MiniCrt.step st op with
        | none => True
        | some st' => PatchedRun st' ops

theorem ListRun.ok {st : St} {ops : List Op} (h : ListRun base st ops) :
    ListOk base st.heap := by
  cases ops with
  | nil => exact h.1
  | cons op ops => exact h.1.1

theorem ChainInv.run_iff : ∀ (ops : List Op) {st : St}, ChainInv base st →
    (ListRun base st ops ↔ PatchedRun st ops) := by
  intro ops
  induction ops with
  | nil => intro st h; exact ⟨fun _ => trivial, fun _ => h.listOk⟩
  | cons op ops ih =>
      intro st h
      constructor
      · intro hrun ha
        obtain ⟨st', hstep, hyes, hno⟩ := h.step ha
        have hrest := hrun.2 ha
        rw [hstep] at hrest ⊢
        have hp : Patched st op := by
          refine not_not.mp fun hp => ?_
          exact hno hp hrest.ok
        exact ⟨hp, (ih (hyes hp)).mp hrest⟩
      · intro hrun
        refine ⟨h.listOk, fun ha => ?_⟩
        obtain ⟨st', hstep, hyes, -⟩ := h.step ha
        obtain ⟨hp, hrest⟩ := hrun ha
        rw [hstep] at hrest ⊢
        exact (ih (hyes hp)).mpr hrest

/-- From `mini_crt_heap_init` on, with the region granted, the list is in
order all along a run if and only if the run meets the condition at every
call. -/
theorem listRun_iff_patchedRun (base : Nat) (brk : Nat → Nat) (heap : Heap)
    (ops : List Op) (hbase : 0 < base) (hfits : base + heapSize < 2 ^ 32)
    (hbrk : brk (base + heapSize) ≠ 0) :
    ListRun base ⟨(miniCrtHeapInit base brk heap).2, []⟩ ops ↔
      PatchedRun ⟨(miniCrtHeapInit base brk heap).2, []⟩ ops :=
  ChainInv.run_iff ops (ChainInv.init hbase hfits hbrk)

/-! ## Runs that can be evaluated -/

instance (heap : Heap) (sz : Nat) : Decidable (SplitsLast heap sz) :=
  match hf : (blocks heap).find? (fits heap.mem sz) with
  | none => .isTrue fun _ h hh => by
      rw [hf] at hh
      cases hh
  | some h =>
      decidable_of_iff (sz ≠ 0 → size heap.mem h > add32 sz (HEADER_SIZE * 2) →
          next heap.mem h = 0) (by
        rw [SplitsLast, hf]
        simp only [Option.mem_some_iff, forall_eq'])

instance (heap : Heap) (ptr : Nat) : Decidable (MergesLast heap ptr) :=
  inferInstanceAs (Decidable (_ → _ → _))

instance (st : St) : (op : Op) → Decidable (Patched st op)
  | .malloc _ => inferInstanceAs (Decidable (SplitsLast _ _))
  | .free _ => inferInstanceAs (Decidable (MergesLast _ _))

instance decPatchedRun : (st : St) → (ops : List Op) →
    Decidable (PatchedRun st ops)
  | _, [] => inferInstanceAs (Decidable True)
  | st, op :: ops =>
      have : Decidable (match MiniCrt.step st op with
          | none => True
          | some st' => PatchedRun st' ops) :=
        match MiniCrt.step st op with
        | none => inferInstanceAs (Decidable True)
        | some st' => decPatchedRun st' ops
      inferInstanceAs (Decidable (Allowed st op → Patched st op ∧ _))

/-- Two blocks, freed last first: nothing is ever split or joined but at the
end of the list, and one free block is left. -/
theorem listRun_two_blocks :
    PatchedRun exampleInit [.malloc 100, .malloc 50, .free 0x0804A084,
        .free 0x0804A010] ∧
      ListRun exampleBase exampleInit [.malloc 100, .malloc 50,
        .free 0x0804A084, .free 0x0804A010] := by
  have hp : PatchedRun exampleInit [.malloc 100, .malloc 50,
      .free 0x0804A084, .free 0x0804A010] := by decide +kernel
  exact ⟨hp, (listRun_iff_patchedRun exampleBase id _ _ (by decide)
    (by decide) (by decide)).mpr hp⟩

/-- The block of 116 bytes is freed and split for 20 bytes, and the block of
66 bytes behind it keeps its link to the first half. -/
theorem not_listRun_split :
    ¬ ListRun exampleBase exampleInit [.malloc 100, .malloc 50,
      .free 0x0804A010, .malloc 20] := by
  have hinit : ChainInv exampleBase exampleInit :=
    ChainInv.init (by decide) (by decide) (by decide)
  rw [hinit.run_iff]
  decide +kernel

end LearningLinux.MiniCrt
