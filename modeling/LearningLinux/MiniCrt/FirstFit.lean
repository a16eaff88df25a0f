import LearningLinux.MiniCrt.HeapList

/-!
# Which block `malloc` takes

The loop of `malloc` goes through the headers of the list and stops at the
first one it can take, so on a list that ends it answers what `find?` finds
there. Two things follow from how the sizes are compared. A block whose bytes
are exactly those asked for and a header is passed by, because the first of
the two tests is strict. And `size + HEADER_SIZE` wraps around for the last
sixteen sizes, so that a short block passes for a long one: taken whole it is
short, and if it is split its new size is the sum that wrapped around.
-/

namespace LearningLinux.MiniCrt

open Lib

variable {m : ByteMem} {a sz fuel : Nat} {hs : List Nat}

/-! ## Lists that end -/

/-- The headers from `a` on are `hs`, and the last one links to `NULL`. -/
def Listed (m : ByteMem) : Nat → List Nat → Prop
  | a, [] => a = 0
  | a, h :: hs => a ≠ 0 ∧ h = a ∧ Listed m (next m a) hs

theorem walk_listed : ∀ {fuel a : Nat},
    (∃ h ∈ walk m fuel a, next m h = 0) → Listed m a (walk m fuel a) := by
  intro fuel
  induction fuel with
  | zero =>
      intro a ⟨h, hmem, _⟩
      cases hmem
  | succ fuel ih =>
      intro a ⟨h, hmem, hend⟩
      by_cases ha : a = 0
      · rw [walk, if_pos ha]
        exact ha
      · rw [walk, if_neg ha] at hmem ⊢
        refine ⟨ha, rfl, ?_⟩
        by_cases hlast : next m a = 0
        · rw [hlast]
          cases fuel with
          | zero => rfl
          | succ fuel => rfl
        · refine ih ⟨h, (List.mem_cons.mp hmem).resolve_left ?_, hend⟩
          rintro rfl
          exact hlast hend

theorem walk_length (m : ByteMem) : ∀ fuel a, (walk m fuel a).length ≤ fuel := by
  intro fuel
  induction fuel with
  | zero => intro a; exact Nat.le_refl 0
  | succ fuel ih =>
      intro a
      rw [walk]
      split
      · exact Nat.zero_le _
      · exact Nat.succ_le_succ (ih _)

/-- A list of blocks that lie one behind the other is as long as they are. -/
theorem Listed.inside : ∀ {hs : List Nat} {a : Nat}, Listed m a hs →
    (∀ h ∈ hs, next m h ≠ 0 → next m h = h + size m h) →
    ∀ h ∈ hs, h + size m h ≤ a + (hs.map (size m)).sum := by
  intro hs
  induction hs with
  | nil => intro a _ _ h hmem; cases hmem
  | cons b hs ih =>
      intro a ⟨_, hb, hlist⟩ hadj h hmem
      obtain ⟨hnext, hadj'⟩ := List.forall_mem_cons.mp hadj
      rw [List.map_cons, List.sum_cons]
      rcases List.mem_cons.mp hmem with rfl | hmem
      · omega
      · have hle := ih hlist hadj' h hmem
        have hne : next m b ≠ 0 := by
          rw [hb]
          cases hs with
          | nil => cases hmem
          | cons c hs => exact hlist.1
        rw [← hb, hnext hne] at hle
        omega

/-! ## The loop -/

def wholeFit (m : ByteMem) (sz h : Nat) : Bool :=
  size m h > add32 sz HEADER_SIZE && size m h ≤ add32 sz (HEADER_SIZE * 2)

theorem wholeFit_iff (h : Nat) : wholeFit m sz h = true ↔
    add32 sz HEADER_SIZE < size m h ∧
      size m h ≤ add32 sz (HEADER_SIZE * 2) := by
  rw [wholeFit, Bool.and_eq_true, decide_eq_true_iff, decide_eq_true_iff]

/-- The tests for a block that the loop takes. -/
def takes (m : ByteMem) (sz h : Nat) : Bool :=
  type m h ≠ HEAP_BLOCK_USED &&
    (wholeFit m sz h || size m h > add32 sz (HEADER_SIZE * 2))

/-- The memory after the block is taken. -/
def taken (m : ByteMem) (sz h : Nat) : ByteMem :=
  if wholeFit m sz h then setType m h HEAP_BLOCK_USED else splitBlock m h sz

def found (m : ByteMem) (sz : Nat) (hs : List Nat) : ByteMem × Nat :=
  match hs.find? (takes m sz) with
  | none => (m, 0)
  | some h => (taken m sz h, add32 h HEADER_SIZE)

/-- One header. -/
theorem mallocLoop_cons (ha : a ≠ 0) : mallocLoop m sz (fuel + 1) a =
    if takes m sz a then some (taken m sz a, add32 a HEADER_SIZE)
    else mallocLoop m sz fuel (next m a) := by
  rw [mallocLoop, if_neg ha, takes, taken, wholeFit]
  by_cases hused : type m a = HEAP_BLOCK_USED
  · simp [hused]
  · by_cases hwhole : size m a > add32 sz HEADER_SIZE ∧
        size m a ≤ add32 sz (HEADER_SIZE * 2)
    · simp [hused, hwhole]
    · simp [hused, hwhole]

/-- The loop answers what is found on the list, unless it is cut short. -/
theorem mallocLoop_listed : ∀ {hs : List Nat} {fuel a : Nat}, Listed m a hs →
    mallocLoop m sz fuel a = some (found m sz hs) ∨
      mallocLoop m sz fuel a = none ∧ fuel ≤ hs.length := by
  intro hs
  induction hs with
  | nil =>
      intro fuel a h
      cases fuel with
      | zero => exact .inr ⟨rfl, Nat.le_refl 0⟩
      | succ fuel =>
          have h0 : a = 0 := h
          rw [mallocLoop, if_pos h0]
          exact .inl rfl
  | cons b hs ih =>
      rintro fuel a ⟨ha, hb, hlist⟩
      subst hb
      cases fuel with
      | zero => exact .inr ⟨rfl, Nat.zero_le _⟩
      | succ fuel =>
          rw [mallocLoop_cons ha, found, List.find?_cons]
          by_cases htakes : takes m sz b = true
          · rw [if_pos htakes, htakes]
            exact .inl rfl
          · rw [if_neg htakes, Bool.eq_false_iff.mpr htakes]
            rcases @ih fuel _ hlist with hrun | ⟨hrun, hlen⟩
            · exact .inl hrun
            · exact .inr ⟨hrun, Nat.succ_le_succ hlen⟩

/-- The size of a block after it is taken. -/
theorem size_taken (m : ByteMem) (sz h : Nat) : size (taken m sz h) h =
    if wholeFit m sz h then size m h else add32 sz HEADER_SIZE := by
  rw [taken]
  split
  · exact ByteMem.load32_store32_apart (by omega)
  · rw [splitBlock, size, setType, setSize,
      ByteMem.load32_store32_apart (by omega)]
    exact ByteMem.load32_store32_same (Nat.mod_lt _ (by decide))

/-! ## Whether there is a fit -/

/-- The list is what a list of blocks should be: every header is marked free
or used, the blocks lie one behind the other and they are as long as the
heap. -/
structure WellTiled (heap : Heap) : Prop where
  typed : ∀ h ∈ blocks heap, type heap.mem h = HEAP_BLOCK_FREE ∨
    type heap.mem h = HEAP_BLOCK_USED
  adjacent : ∀ h ∈ blocks heap, next heap.mem h ≠ 0 →
    next heap.mem h = h + size heap.mem h
  ends : ∃ h ∈ blocks heap, next heap.mem h = 0
  covers : ((blocks heap).map (size heap.mem)).sum = heapSize

/-- The block is free and has room for `sz` bytes behind its header. -/
def roomy (m : ByteMem) (sz h : Nat) : Bool :=
  type m h = HEAP_BLOCK_FREE && size m h ≥ sz + HEADER_SIZE

/-- `malloc(sz)` returns `NULL` if no block has room, and otherwise the
payload of the first that has. -/
def FirstFit (heap : Heap) (sz : Nat) : Prop :=
  ∃ heap', malloc heap sz = some (heap',
    match (blocks heap).find? (roomy heap.mem sz) with
    | none => 0
    | some h => h + HEADER_SIZE)

/-- The calls `ops`, made as promised, lead from one state to another. -/
inductive Run : St → List Op → St → Prop where
  | done (st : St) : Run st [] st
  | call {st st' st'' : St} {op : Op} {ops : List Op} (allowed : Allowed st op)
      (step : step st op = some st') (run : Run st' ops st'') :
      Run st (op :: ops) st''

theorem malloc_listHead {heap heap' : Heap} {ptr : Nat}
    (h : malloc heap sz = some (heap', ptr)) :
    heap'.listHead = heap.listHead := by
  rw [malloc] at h
  by_cases h0 : sz = 0
  · rw [if_pos h0, Option.some_inj, Prod.mk.injEq] at h
    rw [h.1]
  · rw [if_neg h0, Option.map_eq_some_iff] at h
    obtain ⟨r, -, hr⟩ := h
    rw [Prod.mk.injEq] at hr
    rw [← hr.1]

/-- The record that `free` returns, for any header: the header is a variable
here so that nothing is computed with its address. -/
theorem merged_listHead (heap : Heap) (m : ByteMem) (header : Nat) :
    (have m := m
     match mergePrev m header with
     | (m, header) => { heap with mem := mergeNext m header }).listHead =
      heap.listHead := rfl

theorem free_listHead (heap : Heap) (ptr : Nat) :
    (free heap ptr).listHead = heap.listHead := by
  by_cases hused : type heap.mem (headerOf ptr) ≠ HEAP_BLOCK_USED
  · rw [free, if_pos hused]
  · rewrite [free, if_neg hused]
    exact merged_listHead heap (setType heap.mem (headerOf ptr)
      HEAP_BLOCK_FREE) (headerOf ptr)

theorem Run.listHead {st st' : St} {ops : List Op} (h : Run st ops st') :
    st'.heap.listHead = st.heap.listHead := by
  induction h with
  | done st => rfl
  | @call st st' st'' op ops _ hstep _ ih =>
      rw [ih]
      cases op with
      | malloc sz =>
          rw [MiniCrt.step, Option.map_eq_some_iff] at hstep
          obtain ⟨r, hr, rfl⟩ := hstep
          exact malloc_listHead hr
      | free ptr =>
          rw [MiniCrt.step, Option.some_inj] at hstep
          rw [← hstep]
          exact free_listHead _ _

/-- No sum wraps around for a size up to the heap's. -/
theorem takes_iff (hsz : sz ≤ heapSize) (h : Nat) : takes m sz h = true ↔
    type m h ≠ HEAP_BLOCK_USED ∧ sz + HEADER_SIZE < size m h := by
  have h16 : add32 sz HEADER_SIZE = sz + 16 := by
    simp only [add32, heapSize, HEADER_SIZE] at hsz ⊢
    omega
  have h32 : add32 sz (HEADER_SIZE * 2) = sz + 32 := by
    simp only [add32, heapSize, HEADER_SIZE] at hsz ⊢
    omega
  rw [takes, Bool.and_eq_true, Bool.or_eq_true, wholeFit_iff,
    decide_eq_true_iff, decide_eq_true_iff, h16, h32]
  simp only [HEADER_SIZE]
  omega

theorem WellTiled.listed {heap : Heap} (h : WellTiled heap) :
    Listed heap.mem heap.listHead (blocks heap) := walk_listed h.ends

/-- What `malloc` answers for a size up to the heap's. -/
theorem WellTiled.malloc_eq {heap : Heap} (h : WellTiled heap) (h0 : 0 < sz) :
    malloc heap sz = some
      ({ heap with mem := (found heap.mem sz (blocks heap)).1 },
        (found heap.mem sz (blocks heap)).2) := by
  have hne : ¬ sz = 0 := by omega
  have hlen : (blocks heap).length ≤ heapSize := walk_length ..
  rcases @mallocLoop_listed _ sz _ (2 ^ 32 + 1) _ h.listed with hrun | ⟨-, hle⟩
  · rw [malloc, if_neg hne, hrun, Option.map_some]
  · exact absurd (Nat.le_trans hle hlen) (by decide)

/-- The payload of a block of the list, where the list starts at `base`. -/
theorem WellTiled.payload {heap : Heap} {base h : Nat} (hwf : WellTiled heap)
    (hlist : heap.listHead = base) (hfits : base + heapSize < 2 ^ 32)
    (hmem : h ∈ blocks heap) (hroom : HEADER_SIZE < size heap.mem h) :
    add32 h HEADER_SIZE = h + HEADER_SIZE := by
  have hin := hwf.listed.inside hwf.adjacent h hmem
  rw [hwf.covers, hlist] at hin
  exact Nat.mod_eq_of_lt (by omega)

theorem find?_eq_of_imp {α : Type} {p q : α → Bool} {l : List α} {x : α}
    (hq : l.find? q = some x) (hp : p x = true)
    (himp : ∀ y ∈ l, p y = true → q y = true) : l.find? p = some x := by
  obtain ⟨-, xs, ys, rfl, hno⟩ := List.find?_eq_some_iff_append.mp hq
  refine List.find?_eq_some_iff_append.mpr ⟨hp, xs, ys, rfl, fun y hy => ?_⟩
  rw [Bool.not_eq_true']
  have hnot : ¬ q y = true := by simpa using hno y hy
  refine Bool.eq_false_iff.mpr fun hpy => hnot (himp y (by simp [hy]) hpy)

/-- In a state that the calls of a run lead to, with the list in order,
`malloc` finds the first block with room, if and only if that block has a byte
more than it needs. -/
theorem firstFit_iff (base : Nat) (brk : Nat → Nat) (heap : Heap)
    (hfits : base + heapSize < 2 ^ 32) (hbrk : brk (base + heapSize) ≠ 0)
    (ops : List Op) (st : St)
    (hrun : Run ⟨(miniCrtHeapInit base brk heap).2, []⟩ ops st)
    (hwf : WellTiled st.heap) (sz : Nat) (h0 : 0 < sz) (hsz : sz ≤ heapSize) :
    FirstFit st.heap sz ↔
      ∀ h ∈ (blocks st.heap).find? (roomy st.heap.mem sz),
        size st.heap.mem h ≠ sz + HEADER_SIZE := by
  have hlist : st.heap.listHead = base := by
    rw [hrun.listHead, miniCrtHeapInit_eq hfits hbrk]
  have htakes : ∀ h ∈ blocks st.heap, takes st.heap.mem sz h = true →
      roomy st.heap.mem sz h = true := by
    intro h hmem htakes
    obtain ⟨hused, hlarge⟩ := (takes_iff hsz h).mp htakes
    have hfree := (hwf.typed h hmem).resolve_right hused
    simp only [roomy, Bool.and_eq_true, decide_eq_true_iff]
    omega
  have hpayload : ∀ h ∈ blocks st.heap, sz + HEADER_SIZE ≤ size st.heap.mem h →
      add32 h HEADER_SIZE = h + HEADER_SIZE := by
    intro h hmem hroom
    exact hwf.payload hlist hfits hmem (by omega)
  have hcode := hwf.malloc_eq h0
  rw [FirstFit, hcode]
  cases hfind : (blocks st.heap).find? (roomy st.heap.mem sz) with
  | none =>
      have hnone : (blocks st.heap).find? (takes st.heap.mem sz) = none := by
        rw [List.find?_eq_none] at hfind ⊢
        exact fun h hmem hyes => hfind h hmem (htakes h hmem hyes)
      rw [found, hnone]
      exact ⟨fun _ => by simp, fun _ => ⟨_, rfl⟩⟩
  | some a =>
      have hmem := List.mem_of_find?_eq_some hfind
      have hroomy := List.find?_some hfind
      simp only [roomy, Bool.and_eq_true, decide_eq_true_iff] at hroomy
      simp only [Option.mem_some_iff, forall_eq']
      constructor
      · -- a block that is just large enough is passed by
        rintro ⟨heap', heq⟩ hexact
        have hptr := congrArg Prod.snd (Option.some.inj heq)
        rw [found] at hptr
        cases htaken : (blocks st.heap).find? (takes st.heap.mem sz) with
        | none =>
            rw [htaken] at hptr
            exact absurd hptr.symm (Nat.succ_ne_zero _)
        | some b =>
            have hlarge := (takes_iff hsz b).mp (List.find?_some htaken)
            have hb := hpayload b (List.mem_of_find?_eq_some htaken)
              (Nat.le_of_lt hlarge.2)
            rw [htaken] at hptr
            obtain rfl : b = a := Nat.add_right_cancel (hb.symm.trans hptr)
            omega
      · intro hne
        have htaken : takes st.heap.mem sz a = true := by
          refine (takes_iff hsz a).mpr ⟨?_, by omega⟩
          rw [hroomy.1]
          decide
        rw [found, find?_eq_of_imp hfind htaken htakes]
        exact ⟨_, congrArg (fun p => some (_, p)) (hpayload a hmem hroomy.2)⟩

instance (heap : Heap) : Decidable (WellTiled heap) :=
  decidable_of_iff
    ((∀ h ∈ blocks heap, type heap.mem h = HEAP_BLOCK_FREE ∨
        type heap.mem h = HEAP_BLOCK_USED) ∧
      (∀ h ∈ blocks heap, next heap.mem h ≠ 0 →
        next heap.mem h = h + size heap.mem h) ∧
      (∃ h ∈ blocks heap, next heap.mem h = 0) ∧
      ((blocks heap).map (size heap.mem)).sum = heapSize)
    ⟨fun h => ⟨h.1, h.2.1, h.2.2.1, h.2.2.2⟩,
      fun h => ⟨h.typed, h.adjacent, h.ends, h.covers⟩⟩

/-- With a block of 116 bytes allocated. -/
def exampleTaken : St := (step exampleInit (.malloc 100)).getD exampleInit

/-- The rest of the heap has room for 50. -/
theorem firstFit_rest : Run exampleInit [.malloc 100] exampleTaken ∧
    FirstFit exampleTaken.heap 50 := by
  have hsome : (step exampleInit (.malloc 100)).isSome = true := by
    decide +kernel
  have hstep : step exampleInit (.malloc 100) = some exampleTaken := by
    rw [exampleTaken, ← Option.get_eq_getD _ (h := hsome), Option.some_get]
  have hrun : Run exampleInit [.malloc 100] exampleTaken :=
    .call (by decide) hstep (.done _)
  have hwf : WellTiled exampleTaken.heap := by decide +kernel
  have hmore : ∀ h ∈ (blocks exampleTaken.heap).find?
      (roomy exampleTaken.heap.mem 50),
        size exampleTaken.heap.mem h ≠ 50 + HEADER_SIZE := by decide +kernel
  exact ⟨hrun, (firstFit_iff exampleBase id _ (by decide) (by decide) _ _ hrun
    hwf 50 (by decide) (by decide)).mpr hmore⟩

/-- The whole heap is one free block, and it is refused to a request that
needs all of it. -/
theorem not_firstFit_exact : Run exampleInit [] exampleInit ∧
    WellTiled exampleInit.heap ∧
    ¬ FirstFit exampleInit.heap (heapSize - HEADER_SIZE) := by
  have hnull : (malloc exampleInit.heap (heapSize - HEADER_SIZE)).map Prod.snd =
      some 0 := by decide +kernel
  have hroomy : (blocks exampleInit.heap).find?
      (roomy exampleInit.heap.mem (heapSize - HEADER_SIZE)) =
        some exampleBase := by decide +kernel
  refine ⟨.done _, by decide +kernel, fun ⟨heap', hcode⟩ => ?_⟩
  rw [hcode, hroomy] at hnull
  exact absurd (Option.some.inj hnull) (Nat.succ_ne_zero _)

/-! ## Whether the block is long enough -/

/-- Headers are found through pointers, which are words. -/
theorem Listed.lt : ∀ {hs : List Nat} {a : Nat}, Listed m a hs →
    a < 2 ^ 32 → ∀ h ∈ hs, h < 2 ^ 32 := by
  intro hs
  induction hs with
  | nil => intro a _ _ h hmem; cases hmem
  | cons b hs ih =>
      intro a ⟨_, hb, hlist⟩ ha h hmem
      rcases List.mem_cons.mp hmem with rfl | hmem
      · omega
      · exact ih hlist (ByteMem.load32_lt ..) h hmem

theorem found_none (h : hs.find? (takes m sz) = none) :
    found m sz hs = (m, 0) := by
  rw [found, h]

theorem found_some {h : Nat} (hfind : hs.find? (takes m sz) = some h) :
    found m sz hs = (taken m sz h, add32 h HEADER_SIZE) := by
  rw [found, hfind]

/-- What is listed is determined by where the list starts. -/
theorem Listed.unique : ∀ {hs hs' : List Nat} {a : Nat}, Listed m a hs →
    Listed m a hs' → hs = hs' := by
  intro hs
  induction hs with
  | nil =>
      intro hs' a h h'
      cases hs' with
      | nil => rfl
      | cons b hs' => exact absurd h h'.1
  | cons b hs ih =>
      intro hs' a ⟨ha, hb, h⟩ h'
      cases hs' with
      | nil => exact absurd h' ha
      | cons b' hs' =>
          obtain ⟨-, hb', h'⟩ := h'
          rw [hb, hb', ih h h']

theorem Listed.suffix : ∀ {xs : List Nat} {a h : Nat},
    Listed m a (xs ++ h :: hs) → Listed m h (h :: hs) := by
  intro xs
  induction xs with
  | nil =>
      intro a h ⟨ha, hb, hl⟩
      subst hb
      exact ⟨ha, rfl, hl⟩
  | cons b xs ih =>
      intro a h ⟨_, _, hl⟩
      exact ih hl

/-- A list that ends has no header twice. -/
theorem Listed.nodup : ∀ {hs : List Nat} {a : Nat}, Listed m a hs →
    hs.Nodup := by
  intro hs
  induction hs with
  | nil => intro a _; exact List.nodup_nil
  | cons b hs ih =>
      intro a hl
      refine List.nodup_cons.mpr ⟨fun hmem => ?_, ih hl.2.2⟩
      obtain ⟨xs, ys, rfl⟩ := List.append_of_mem hmem
      have hagain : Listed m b (b :: ys) := hl.2.2.suffix
      have hlist : Listed m b (b :: (xs ++ b :: ys)) := by
        obtain ⟨ha, hb, hrest⟩ := hl
        subst hb
        exact ⟨ha, rfl, hrest⟩
      have hlen := congrArg List.length (hagain.unique hlist)
      simp only [List.length_cons, List.length_append] at hlen
      omega

theorem Listed.length_le (h : Listed m a hs) (ha : a < 2 ^ 32) :
    hs.length ≤ 2 ^ 32 := by
  have hsub : hs ⊆ List.range (2 ^ 32) := fun b hb =>
    List.mem_range.mpr (h.lt ha b hb)
  have hle := (List.subperm_of_subset h.nodup hsub).length_le
  rwa [List.length_range] at hle

theorem Listed.malloc_eq {heap : Heap} (h : Listed heap.mem heap.listHead hs)
    (hhead : heap.listHead < 2 ^ 32) (h0 : 0 < sz) :
    malloc heap sz = some
      ({ heap with mem := (found heap.mem sz hs).1 },
        (found heap.mem sz hs).2) := by
  have hne : ¬ sz = 0 := by omega
  have hlen := h.length_le hhead
  rcases @mallocLoop_listed _ sz _ (2 ^ 32 + 1) _ h with hrun | ⟨-, hle⟩
  · rw [malloc, if_neg hne, hrun, Option.map_some]
  · omega

/-- The block of the payload has room for `sz` bytes behind its header. -/
def LongEnough (m : ByteMem) (sz ptr : Nat) : Prop :=
  sz + HEADER_SIZE ≤ size m (headerOf ptr)

instance (m : ByteMem) (sz ptr : Nat) : Decidable (LongEnough m sz ptr) :=
  Nat.decLe _ _

/-- A block that is taken is long enough unless the sum wraps around: then it
is short whole, and short after it is split. -/
theorem longEnough_taken_iff {h : Nat} (hh : h < 2 ^ 32) :
    LongEnough (taken m sz h) sz (add32 h HEADER_SIZE) ↔
      sz + HEADER_SIZE < 2 ^ 32 := by
  have hheader : headerOf (add32 h HEADER_SIZE) = h := by
    simp only [headerOf, add32, HEADER_SIZE]
    omega
  have hlt : size m h < 2 ^ 32 := ByteMem.load32_lt ..
  rw [LongEnough, hheader, size_taken]
  by_cases hwhole : wholeFit m sz h = true
  · rw [if_pos hwhole]
    obtain ⟨hlow, -⟩ := (wholeFit_iff h).mp hwhole
    simp only [add32, HEADER_SIZE] at hlow ⊢
    omega
  · rw [if_neg hwhole]
    simp only [add32, HEADER_SIZE]
    omega

/-- Where the sum wraps around, the two tests together are the first half of
the first. -/
theorem takes_eq_fits (hwrap : ¬ sz + HEADER_SIZE < 2 ^ 32)
    (hsz : sz < 2 ^ 32) : takes m sz = fits m sz := by
  funext h
  rw [Bool.eq_iff_iff, takes, fits, Bool.and_eq_true, Bool.and_eq_true,
    Bool.or_eq_true, wholeFit_iff, decide_eq_true_iff, decide_eq_true_iff,
    decide_eq_true_iff]
  simp only [add32, HEADER_SIZE] at hwrap ⊢
  omega

/-- What `malloc` returns is long enough, or `NULL`, if and only if
`size + HEADER_SIZE` does not wrap around, or no free block is larger than
what it wraps around to, or the first that is has its payload at address 0. -/
theorem longEnough_iff (heap : Heap) (hs : List Nat)
    (hhead : heap.listHead < 2 ^ 32) (hl : Listed heap.mem heap.listHead hs)
    (sz : Nat) (h0 : 0 < sz) (hsz : sz < 2 ^ 32) :
    (∀ heap' ptr, malloc heap sz = some (heap', ptr) → ptr ≠ 0 →
        LongEnough heap'.mem sz ptr) ↔
      (sz + HEADER_SIZE < 2 ^ 32 ∨
        ∀ h ∈ hs.find? (fits heap.mem sz), h + HEADER_SIZE = 2 ^ 32) := by
  have hcode := hl.malloc_eq hhead h0
  constructor
  · intro hall
    by_cases hwrap : sz + HEADER_SIZE < 2 ^ 32
    · exact .inl hwrap
    · refine .inr fun h hfind => ?_
      rw [Option.mem_def, ← takes_eq_fits hwrap hsz] at hfind
      have hlt := hl.lt hhead h (List.mem_of_find?_eq_some hfind)
      rw [found_some hfind] at hcode
      by_contra hne
      have hptr : add32 h HEADER_SIZE ≠ 0 := by
        simp only [add32, HEADER_SIZE] at hne ⊢
        omega
      have hlong := hall { heap with mem := taken heap.mem sz h }
        (add32 h HEADER_SIZE) hcode hptr
      exact hwrap ((longEnough_taken_iff hlt).mp hlong)
  · intro hcond heap' ptr hrun hptr
    rw [hcode] at hrun
    obtain ⟨rfl, rfl⟩ := Prod.mk.inj (Option.some.inj hrun)
    cases hfind : hs.find? (takes heap.mem sz) with
    | none =>
        rw [found_none hfind] at hptr
        exact absurd rfl hptr
    | some h =>
        rw [found_some hfind] at hptr ⊢
        have hlt := hl.lt hhead h (List.mem_of_find?_eq_some hfind)
        refine (longEnough_taken_iff hlt).mpr ?_
        rcases hcond with hwrap | hzero
        · exact hwrap
        · by_contra hwrap
          rw [takes_eq_fits hwrap hsz] at hfind
          have htop := hzero h hfind
          simp only [add32, HEADER_SIZE] at htop hptr
          omega

theorem longEnough_hundred : ∃ heap' ptr,
    malloc exampleInit.heap 100 = some (heap', ptr) ∧
      LongEnough heap'.mem 100 ptr := by
  have hptr : (malloc exampleInit.heap 100).map Prod.snd =
      some (exampleBase + HEADER_SIZE) := by decide +kernel
  have hwf : WellTiled exampleInit.heap := by decide +kernel
  obtain ⟨⟨heap', ptr⟩, hrun, rfl⟩ := Option.map_eq_some_iff.mp hptr
  exact ⟨heap', _, hrun, (longEnough_iff _ _ (by decide +kernel) hwf.listed 100
    (by decide) (by decide)).mpr (.inl (by decide)) heap' _ hrun (by decide)⟩

/-- The whole heap is one free block, and a request for `2 ^ 32 - 1` splits
fifteen bytes off it. -/
theorem not_longEnough_wraps : WellTiled exampleInit.heap ∧ ∃ heap' ptr,
    malloc exampleInit.heap (2 ^ 32 - 1) = some (heap', ptr) ∧ ptr ≠ 0 ∧
      ¬ LongEnough heap'.mem (2 ^ 32 - 1) ptr := by
  have hany : (malloc exampleInit.heap (2 ^ 32 - 1)).any (fun r =>
      r.2 ≠ 0 ∧ ¬ LongEnough r.1.mem (2 ^ 32 - 1) r.2) = true := by
    decide +kernel
  obtain ⟨⟨heap', ptr⟩, hrun, hshort⟩ := (Option.any_eq_true _ _).mp hany
  exact ⟨by decide +kernel, heap', ptr, hrun, of_decide_eq_true hshort⟩

end LearningLinux.MiniCrt
