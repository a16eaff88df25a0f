import LearningLinux.MiniCrt.HeapOps

/-!
# Live allocations stay apart

A run starts from `mini_crt_heap_init` and calls `malloc` with sizes up to
the heap's and `free` with pointers it got from `malloc` and has not freed.
`live` lists these pointers.

Two of the branches forget a backward link: `malloc` splits a block without
telling the block behind it that its neighbour is now the new half, and
`free` joins a block with the next one without telling the one behind that.
Nothing goes wrong until a later `free` follows the stale link and finds a
free header there: it then joins blocks that are not neighbours, and the
blocks in between, live or not, are handed out again. So a run is safe as
long as every such merge is with the block in front (`SoundMerge`).
-/

namespace LearningLinux.MiniCrt

open Lib

structure St where
  heap : Heap
  live : List Nat

inductive Op where
  | malloc (size : Nat)
  | free (ptr : Nat)
  deriving DecidableEq, Repr

/-- One call; `none` is a call that does not return. -/
def step (st : St) : Op → Option St
  | .malloc sz =>
      (MiniCrt.malloc st.heap sz).map fun r =>
        ⟨r.1, if r.2 = 0 then st.live else r.2 :: st.live⟩
  | .free ptr => some ⟨MiniCrt.free st.heap ptr, st.live.erase ptr⟩

/-- What the caller promises. -/
def Allowed (st : St) : Op → Prop
  | .malloc sz => sz ≤ heapSize
  | .free ptr => ptr ∈ st.live

/-- The blocks of two live pointers do not overlap. -/
def Apart (m : ByteMem) (p q : Nat) : Prop :=
  headerOf p + size m (headerOf p) ≤ headerOf q ∨
    headerOf q + size m (headerOf q) ≤ headerOf p

/-- The blocks of the live allocations lie in the heap and are disjoint. -/
structure HeapSafe (base : Nat) (st : St) : Prop where
  inside : ∀ p ∈ st.live, base ≤ headerOf p ∧
    headerOf p + size st.heap.mem (headerOf p) ≤ base + heapSize
  apart : st.live.Pairwise (Apart st.heap.mem)

/-! ## Sound merges -/

/-- The headers met from `h` on by following `next`. -/
def walk (m : ByteMem) : Nat → Nat → List Nat
  | 0, _ => []
  | fuel + 1, h => if h = 0 then [] else h :: walk m fuel (next m h)

/-- The headers of the block list; a block is longer than its header, so
there are fewer of them than bytes. -/
def blocks (heap : Heap) : List Nat := walk heap.mem heapSize heap.listHead

/-- If `free ptr` is about to merge with the block its backward link names,
that is a block of the list and the one in front of `ptr`'s. -/
def SoundMerge (heap : Heap) (ptr : Nat) : Prop :=
  let h := headerOf ptr
  let m := setType heap.mem h HEAP_BLOCK_FREE
  prev m h ≠ 0 → type m (prev m h) = HEAP_BLOCK_FREE →
    prev m h ∈ blocks heap ∧ next heap.mem (prev m h) = h

def SoundCall (st : St) : Op → Prop
  | .malloc _ => True
  | .free ptr => SoundMerge st.heap ptr

variable {base : Nat} {m : ByteMem} {b : Blk} {bs xs ys : List Blk}

theorem walk_tiles : ∀ {bs : List Blk} {fuel a q : Nat}, Tiles m 0 a bs →
    0 < a → q ∈ walk m fuel (if bs = [] then 0 else a) →
      ∃ xs b ys, bs = xs ++ b :: ys ∧ q = a + total xs := by
  intro bs
  induction bs with
  | nil =>
      intro fuel a q _ _ hq
      cases fuel with
      | zero => cases hq
      | succ fuel => simp [walk] at hq
  | cons b bs ih =>
      intro fuel a q h ha hq
      have ha' : ¬ a = 0 := by omega
      rw [if_neg (by simp)] at hq
      cases fuel with
      | zero => cases hq
      | succ fuel =>
          rw [walk, if_neg ha', h.1.next_eq] at hq
          rcases List.mem_cons.mp hq with rfl | hq
          · exact ⟨[], b, bs, rfl, rfl⟩
          · obtain ⟨xs, c, ys, rfl, rfl⟩ := ih h.2 (by omega) hq
            refine ⟨b :: xs, c, ys, rfl, ?_⟩
            rw [total_cons, Nat.add_assoc]

theorem Tiles.size_pos : ∀ {bs : List Blk} {a n : Nat}, Tiles m n a bs →
    ∀ c ∈ bs, 0 < c.size := by
  intro bs
  induction bs with
  | nil => intro a n _ c hc; cases hc
  | cons b bs ih =>
      intro a n h c hc
      rcases List.mem_cons.mp hc with rfl | hc
      · have hroom := h.1.room
        omega
      · exact ih h.2 c hc

theorem eq_nil_of_total {zs : List Blk} (hpos : ∀ c ∈ zs, 0 < c.size)
    (h : total zs = 0) : zs = [] := by
  cases zs with
  | nil => rfl
  | cons c zs =>
      have := hpos c (by simp)
      rw [total_cons] at h
      omega

/-- A place in the tiling is determined by its address. -/
theorem prefix_unique {us vs : List Blk} (hpos : ∀ c ∈ bs, 0 < c.size)
    (h : bs = xs ++ us) (h' : bs = ys ++ vs) (ht : total xs = total ys) :
    xs = ys := by
  have happ : xs ++ us = ys ++ vs := by rw [← h, h']
  rcases List.append_eq_append_iff.mp happ with ⟨zs, rfl, -⟩ | ⟨zs, rfl, -⟩
  · have hz : zs = [] := by
      refine eq_nil_of_total (fun c hc => hpos c (by rw [h']; simp [hc])) ?_
      rw [total_append] at ht
      omega
    rw [hz, List.append_nil]
  · have hz : zs = [] := by
      refine eq_nil_of_total (fun c hc => hpos c (by rw [h]; simp [hc])) ?_
      rw [total_append] at ht
      omega
    rw [hz, List.append_nil]

/-- A sound merge is one with the block in front. -/
theorem SoundMerge.inOrder {heap : Heap} (h : Heaped base heap.mem bs)
    (hlist : heap.listHead = base) (hbs : bs = xs ++ b :: ys)
    (hs : SoundMerge heap (base + total xs + HEADER_SIZE)) :
    MergesInOrder base
      (setType heap.mem (base + total xs) HEAP_BLOCK_FREE) xs := by
  subst hbs
  have hbound := h.bound
  have hroom := h.header.room
  have hpos := h.base_pos
  rw [SoundMerge, headerOf_payload (by omega)] at hs
  intro hne hfree
  obtain ⟨hmem, hnext⟩ := hs hne hfree
  have hcons : ¬ xs ++ b :: ys = [] := by simp
  rw [blocks, hlist] at hmem
  obtain ⟨xs', p, ys', hsplit, hq⟩ := walk_tiles h.tiles hpos
    (by rw [if_neg hcons]; exact hmem)
  have hp := (hsplit ▸ h).header
  rw [hq, hp.next_eq] at hnext
  have hys : ¬ ys' = [] := by
    intro he
    rw [if_pos he] at hnext
    omega
  rw [if_neg hys] at hnext
  refine ⟨xs', p, ?_, hq⟩
  refine prefix_unique h.tiles.size_pos rfl
    (by rw [hsplit, List.append_assoc, List.singleton_append]) ?_
  rw [total_append, total_cons, total_nil]
  omega

/-! ## The invariant -/

/-- The blocks tile the heap, and the live pointers are the payloads of the
used ones. -/
def Inv (base : Nat) (st : St) : Prop :=
  st.heap.listHead = base ∧ ∃ bs, Heaped base st.heap.mem bs ∧
    ((usedAddrs base bs).map (· + HEADER_SIZE)).Perm st.live

theorem Inv.heapSafe {st : St} (h : Inv base st) : HeapSafe base st := by
  obtain ⟨-, bs, hheap, hperm⟩ := h
  have hfits := hheap.fits
  have hcov := hheap.covers
  have hheader : ∀ a ∈ usedAddrs base bs, headerOf (a + HEADER_SIZE) = a := by
    intro a ha
    obtain ⟨xs, b, ys, rfl, -, rfl⟩ := exists_of_mem_usedAddrs ha
    have hbound := hheap.bound
    have hroom := hheap.header.room
    exact headerOf_payload (by omega)
  have hmem : ∀ p ∈ st.live, ∃ a ∈ usedAddrs base bs, p = a + HEADER_SIZE := by
    intro p hp
    obtain ⟨a, ha, rfl⟩ := List.mem_map.mp (hperm.mem_iff.mpr hp)
    exact ⟨a, ha, rfl⟩
  refine ⟨fun p hp => ?_, ?_⟩
  · obtain ⟨a, ha, rfl⟩ := hmem p hp
    rw [hheader a ha, ← hcov]
    exact hheap.tiles.used_inside ha
  · have hsymm : ∀ {p q : Nat}, Apart st.heap.mem p q → Apart st.heap.mem q p :=
      fun h => Or.symm h
    refine (hperm.pairwise_iff hsymm).mp ?_
    rw [List.pairwise_map]
    refine List.Pairwise.imp_of_mem ?_ hheap.tiles.used_disjoint
    intro a c ha hc hac
    refine Or.inl ?_
    rw [hheader a ha, hheader c hc]
    exact hac

theorem Inv.step {st : St} {op : Op} (h : Inv base st) (ha : Allowed st op)
    (hs : SoundCall st op) :
    ∃ st', MiniCrt.step st op = some st' ∧ Inv base st' := by
  obtain ⟨hlist, bs, hheap, hperm⟩ := h
  cases op with
  | malloc sz =>
      obtain ⟨heap', ptr, bs', hrun, hheap', hlist', hres⟩ :=
        malloc_spec hheap hlist ha
      refine ⟨⟨heap', if ptr = 0 then st.live else ptr :: st.live⟩, ?_, hlist',
        bs', hheap', ?_⟩
      · rw [MiniCrt.step, hrun, Option.map_some]
      · rcases hres with ⟨h0, hused⟩ | ⟨a, hptr, hused⟩
        · rw [hused, h0]
          exact hperm
        · have hne : ¬ ptr = 0 := by
            simp only [HEADER_SIZE] at hptr
            omega
          show (List.map _ _).Perm (if ptr = 0 then _ else _)
          rw [if_neg hne, hptr]
          exact (hused.map _).trans (hperm.cons _)
  | free ptr =>
      refine ⟨_, rfl, ?_⟩
      obtain ⟨a, hmem, rfl⟩ := List.mem_map.mp (hperm.mem_iff.mpr ha)
      obtain ⟨xs, b, ys, rfl, hb, rfl⟩ := exists_of_mem_usedAddrs hmem
      obtain ⟨bs', hheap', hlist', hused⟩ :=
        free_spec hheap hb (SoundMerge.inOrder hheap hlist rfl hs)
      refine ⟨hlist'.trans hlist, bs', hheap', ?_⟩
      rw [hused, List.map_append]
      have hperm' := hperm.erase (base + total xs + HEADER_SIZE)
      refine List.Perm.trans ?_ hperm'
      rw [usedAddrs_append, usedAddrs_cons_used hb, List.map_append,
        List.map_cons]
      have hcancel := (@List.perm_middle _ (base + total xs + HEADER_SIZE)
        ((usedAddrs base xs).map (· + HEADER_SIZE))
        ((usedAddrs (base + total xs + b.size) ys).map (· + HEADER_SIZE))).erase
          (base + total xs + HEADER_SIZE)
      rw [List.erase_cons_head] at hcancel
      exact hcancel.symm

/-- The one free block `mini_crt_heap_init` leaves. -/
theorem heaped_init {m : ByteMem} (hbase : 0 < base)
    (hfits : base + heapSize < 2 ^ 32) :
    Heaped base (setPrev (setNext (setType (setSize m base heapSize) base
      HEAP_BLOCK_FREE) base 0) base 0) [⟨heapSize, false⟩] := by
  have hfree := HEAP_BLOCK_FREE_lt
  have hsize : heapSize < 2 ^ 32 := by decide
  refine ⟨hbase, hfits, ⟨⟨by decide, ?_, ?_, ?_⟩, trivial⟩, by simp⟩
  all_goals
    simp (disch := omega) only [type, size, next, setType, setSize,
      setNext, setPrev, ByteMem.load32_store32_same,
      ByteMem.load32_store32_apart]
    try rfl

theorem miniCrtHeapInit_eq {brk : Nat → Nat} {heap : Heap}
    (hfits : base + heapSize < 2 ^ 32) (hbrk : brk (base + heapSize) ≠ 0) :
    (miniCrtHeapInit base brk heap).2 =
      ⟨setPrev (setNext (setType (setSize heap.mem base heapSize) base
        HEAP_BLOCK_FREE) base 0) base 0, base⟩ := by
  have hend : add32 base heapSize = base + heapSize := Nat.mod_eq_of_lt hfits
  rw [miniCrtHeapInit, hend, if_neg hbrk]

theorem Inv.init {brk : Nat → Nat} {heap : Heap} (hbase : 0 < base)
    (hfits : base + heapSize < 2 ^ 32) (hbrk : brk (base + heapSize) ≠ 0) :
    Inv base ⟨(miniCrtHeapInit base brk heap).2, []⟩ := by
  rw [miniCrtHeapInit_eq hfits hbrk]
  refine ⟨rfl, [⟨heapSize, false⟩], heaped_init hbase hfits, ?_⟩
  rw [usedAddrs_cons_free rfl]
  exact List.Perm.refl []

/-! ## Whole runs -/

/-- Along the calls `ops`, as long as the caller keeps its promises, every
call returns and the live allocations stay in the heap and apart. -/
def SafeRun (base : Nat) : St → List Op → Prop
  | st, [] => HeapSafe base st
  | st, op :: ops =>
      HeapSafe base st ∧ (Allowed st op →
        match MiniCrt.step st op with
        | none => False
        | some st' => SafeRun base st' ops)

/-- Along the calls `ops`, every merge with a previous block is sound. -/
def SoundRun : St → List Op → Prop
  | _, [] => True
  | st, op :: ops =>
      Allowed st op → SoundCall st op ∧
        match MiniCrt.step st op with
        | none => True
        | some st' => SoundRun st' ops

theorem Inv.safeRun : ∀ (ops : List Op) {st : St}, Inv base st →
    SoundRun st ops → SafeRun base st ops := by
  intro ops
  induction ops with
  | nil => intro st h _; exact h.heapSafe
  | cons op ops ih =>
      intro st h hs
      refine ⟨h.heapSafe, fun ha => ?_⟩
      obtain ⟨hcall, hrest⟩ := hs ha
      obtain ⟨st', hstep, h'⟩ := h.step ha hcall
      rw [hstep] at hrest ⊢
      exact ih h' hrest

/-- From `mini_crt_heap_init` on, with the region granted, a run all of whose
merges are sound keeps the live allocations in the heap and disjoint. -/
theorem safeRun_of_soundRun (base : Nat) (brk : Nat → Nat) (heap : Heap)
    (ops : List Op) (hbase : 0 < base) (hfits : base + heapSize < 2 ^ 32)
    (hbrk : brk (base + heapSize) ≠ 0)
    (hs : SoundRun ⟨(miniCrtHeapInit base brk heap).2, []⟩ ops) :
    SafeRun base ⟨(miniCrtHeapInit base brk heap).2, []⟩ ops :=
  Inv.safeRun ops (Inv.init hbase hfits hbrk) hs

/-! ## Runs that can be evaluated -/

instance (st : St) : (op : Op) → Decidable (Allowed st op)
  | .malloc _ => inferInstanceAs (Decidable (_ ≤ _))
  | .free _ => inferInstanceAs (Decidable (_ ∈ _))

instance (m : ByteMem) (p q : Nat) : Decidable (Apart m p q) :=
  inferInstanceAs (Decidable (_ ∨ _))

instance (base : Nat) (st : St) : Decidable (HeapSafe base st) :=
  decidable_of_iff
    ((∀ p ∈ st.live, base ≤ headerOf p ∧
      headerOf p + size st.heap.mem (headerOf p) ≤ base + heapSize) ∧
      st.live.Pairwise (Apart st.heap.mem))
    ⟨fun h => ⟨h.1, h.2⟩, fun h => ⟨h.inside, h.apart⟩⟩

instance (heap : Heap) (ptr : Nat) : Decidable (SoundMerge heap ptr) :=
  inferInstanceAs (Decidable (_ → _ → _ ∧ _))

instance (st : St) : (op : Op) → Decidable (SoundCall st op)
  | .malloc _ => inferInstanceAs (Decidable True)
  | .free _ => inferInstanceAs (Decidable (SoundMerge _ _))

instance decSafeRun (base : Nat) : (st : St) → (ops : List Op) →
    Decidable (SafeRun base st ops)
  | st, [] => inferInstanceAs (Decidable (HeapSafe base st))
  | st, op :: ops =>
      have : Decidable (match MiniCrt.step st op with
          | none => False
          | some st' => SafeRun base st' ops) :=
        match MiniCrt.step st op with
        | none => inferInstanceAs (Decidable False)
        | some st' => decSafeRun base st' ops
      inferInstanceAs (Decidable (HeapSafe base st ∧ (Allowed st op → _)))

instance decSoundRun : (st : St) → (ops : List Op) →
    Decidable (SoundRun st ops)
  | _, [] => inferInstanceAs (Decidable True)
  | st, op :: ops =>
      have : Decidable (match MiniCrt.step st op with
          | none => True
          | some st' => SoundRun st' ops) :=
        match MiniCrt.step st op with
        | none => inferInstanceAs (Decidable True)
        | some st' => decSoundRun st' ops
      inferInstanceAs (Decidable (Allowed st op → SoundCall st op ∧ _))

/-- The program break of a small process, and a memory of zeros. -/
def exampleBase : Nat := 0x0804A000
def exampleInit : St :=
  ⟨(miniCrtHeapInit exampleBase id ⟨⟨fun _ => 0⟩, 0⟩).2, []⟩

/-- Two blocks, freed in order: the second `free` merges with the first
block through a link that is sound. -/
theorem safeRun_two_blocks :
    SoundRun exampleInit [.malloc 100, .malloc 50, .free 0x0804A010,
        .free 0x0804A084] ∧
      SafeRun exampleBase exampleInit [.malloc 100, .malloc 50,
        .free 0x0804A010, .free 0x0804A084] := by
  have hs : SoundRun exampleInit [.malloc 100, .malloc 50, .free 0x0804A010,
      .free 0x0804A084] := by decide +kernel
  exact ⟨hs, safeRun_of_soundRun exampleBase id _ _ (by decide) (by decide)
    (by decide) hs⟩

/-- The block of 116 bytes is freed and split for 20 bytes, which leaves the
backward link of the block of 32 bytes at the first half. The second half is
allocated; freeing the first half and then the block of 32 bytes joins these
two over it, and the last `malloc` overlaps it. -/
theorem not_safeRun_stale_prev :
    ¬ SafeRun exampleBase exampleInit [.malloc 100, .malloc 16,
      .free 0x0804A010, .malloc 20, .malloc 60, .free 0x0804A010,
      .free 0x0804A084, .malloc 40] := by
  decide +kernel

end LearningLinux.MiniCrt
