import LearningLinux.KernelPrivilege.LoadProgram

/-!
# Which stacks of a task are registered

The program is loaded above the LDT and the LDT is above the TCB, so loading
it leaves the TCB with an LDT of four descriptors (`loadProgram_spec`),
whatever the program is. Each of the blocks for the stacks then installs one
more and fills in its own fields (`createStack_spec`), and what comes behind
touches neither but for the copies in the TSS.

For levels 0 and 1 the fields agree with the descriptors. The fields of level
2 do not: the selector has the index of a descriptor that is not there, and
the base is the lower end of the stack.
-/

namespace LearningLinux.KernelPrivilege

open LearningLinux.Lib LearningLinux.Lib.ByteMem

variable {disk : Disk} {salt : List SaltItem} {s : Core} {m m' : ByteMem}
  {tcb ldt n a : Nat}

/-! ## What is meant -/

/-- Stack `k` is registered: the selector is that of the descriptor that has
been installed for it, the fifth and the following of the LDT, the TSS has it
too, and the descriptor has the level and the base. -/
structure Registered (m : ByteMem) (tcb k : Nat) : Prop where
  selector : Selector.ofNat (m.load16 (tcb + 0x22 + 14 * k)) = ⟨4 + k, true, k⟩
  tss : m.load16 (m.load32 (tcb + 0x14) + 8 + 8 * k) =
    m.load16 (tcb + 0x22 + 14 * k)
  dpl : (descriptorAt m (m.load32 (tcb + 0x0c) + 8 * (4 + k))).dpl = k
  base : BitVec.ofNat 32 (m.load32 (tcb + 0x1e + 14 * k)) =
    (descriptorAt m (m.load32 (tcb + 0x0c) + 8 * (4 + k))).base

def imageSize (disk : Disk) (sector : Nat) : Nat :=
  512 * rounds (wholeSectors (headerField disk sector 0) / 512)

def stackSize (disk : Disk) (sector : Nat) : Nat :=
  4096 * headerField disk sector 0x0c

def saltSize (disk : Disk) (sector : Nat) : Nat :=
  256 * rounds (headerField disk sector 0x24)

/-- The TCB has been allocated, the GDT is below it, and there is memory for
all that the program needs. -/
structure Started (disk : Disk) (sector tcb : Nat) (s : Core) : Prop where
  gdt : s.gdtBase + 2 ^ 16 + 8 ≤ tcb
  tcb : tcb + 0x46 ≤ s.ram_alloc
  memory : s.ram_alloc + 163 + imageSize disk sector + stackSize disk sector +
    3 * 4096 + 104 < 2 ^ 32
  salt : s.ram_alloc + 163 + 0x28 + saltSize disk sector ≤ 2 ^ 32

/-! ## Loading the program -/

theorem align4_of_mod (h : a % 4 = 0) : align4 a = a := if_pos h

/-- The address of the next round, if there is one. -/
theorem next_address {w : Nat} (k : Nat) (hw : 0 < w)
    (h : a + w * k + w ≤ 2 ^ 32) :
    (a + w) % 2 ^ 32 + w * k ≤ 2 ^ 32 ∧
      (k = 0 ∨ (a + w) % 2 ^ 32 = a + w) := by
  cases k with
  | zero => exact ⟨Nat.le_of_lt (Nat.mod_lt _ (by decide)), Or.inl rfl⟩
  | succ k =>
      rw [Nat.mul_succ, ← Nat.add_assoc] at h ⊢
      omega

theorem readSectors_spec (disk : Disk) (k : Nat) :
    ∀ (eax ebx : Nat) (m : ByteMem), ebx + 512 * k ≤ 2 ^ 32 →
    Outside (fun b => ebx ≤ b ∧ b < ebx + 512 * k) m
        (readSectors disk k eax ebx m) ∧
      ∀ i < 512, 0 < k →
        (readSectors disk k eax ebx m).byte (ebx + i) = disk eax i := by
  induction k with
  | zero => exact fun _ _ _ _ => ⟨Outside.refl _ _, fun _ _ h => nomatch h⟩
  | succ k ih =>
      intro eax ebx m hroom
      rw [Nat.mul_succ, ← Nat.add_assoc] at hroom ⊢
      have hfirst : Outside (fun b => ebx ≤ b ∧ b < ebx + 512 * k + 512) m
          (m.write ebx 512 (disk eax)) :=
        outside_write (fun b hle hlt => ⟨hle, by omega⟩) _ _
      obtain ⟨hrest, hnext⟩ := next_address k (Nat.succ_pos 511) hroom
      obtain ⟨hout, -⟩ := ih ((eax + 1) % 2 ^ 32) ((ebx + 512) % 2 ^ 32)
        (m.write ebx 512 (disk eax)) hrest
      simp only [readSectors, read_hard_disk_0]
      generalize (ebx + 512) % 2 ^ 32 = next at hout hnext
      refine ⟨hfirst.trans (hout.mono fun b hb => by omega), fun i hi _ => ?_⟩
      rw [hout _ (by omega), write_inside hi]

theorem relocateEntry_outside (salt : List SaltItem) (edi : Nat)
    (m : ByteMem) : Outside (fun b => edi ≤ b ∧ b < edi + 256) m
      (relocateEntry salt edi m) := by
  induction salt generalizing m with
  | nil => exact Outside.refl _ m
  | cons item salt ih =>
      rw [relocateEntry, List.foldl_cons]
      refine Outside.trans ?_ (ih _)
      split
      · refine Outside.trans (outside_store32 ?_ _ _) (outside_store16 ?_ _ _)
        · exact fun b hle hlt => ⟨hle, by omega⟩
        · exact fun b hle hlt => ⟨by omega, by omega⟩
      · exact Outside.refl _ m

theorem relocate_outside (salt : List SaltItem) (k : Nat) :
    ∀ (edi : Nat) (m : ByteMem), edi + 256 * k ≤ 2 ^ 32 →
      Outside (fun b => edi ≤ b ∧ b < edi + 256 * k) m
        (relocate salt k edi m) := by
  induction k with
  | zero => exact fun _ m _ => Outside.refl _ m
  | succ k ih =>
      intro edi m hroom
      rw [Nat.mul_succ, ← Nat.add_assoc] at hroom ⊢
      have hfirst := (relocateEntry_outside salt edi m).mono
        (Q := fun b => edi ≤ b ∧ b < edi + 256 * k + 256) fun b hb => by omega
      obtain ⟨hrest, hnext⟩ := next_address k (Nat.succ_pos 255) hroom
      have hout := ih _ (relocateEntry salt edi m) hrest
      rw [relocate]
      generalize (edi + 256) % 2 ^ 32 = next at hout hnext
      exact hfirst.trans (hout.mono fun b hb => by omega)

theorem rounds_pos (ecx : Nat) : 0 < rounds ecx := by
  rw [rounds]
  split
  · decide
  · next h => exact Nat.pos_of_ne_zero h

theorem wholeSectors_mod (size : Nat) : wholeSectors size % 512 = 0 := by
  rw [wholeSectors]
  split <;> omega

/-- If the image fits, its size is what has been allocated for it. -/
theorem wholeSectors_eq {sector : Nat} (h : imageSize disk sector < 2 ^ 32) :
    wholeSectors (headerField disk sector 0) = imageSize disk sector := by
  have hmod := wholeSectors_mod (headerField disk sector 0)
  rw [imageSize, rounds] at h ⊢
  generalize wholeSectors (headerField disk sector 0) = size at hmod h
  split at h
  · omega
  · next hne =>
      rw [if_neg hne]
      omega

theorem load32_header {edi off sector : Nat} (hoff : off + 4 ≤ 512)
    (h : ∀ i < 512, m.byte (edi + i) = disk sector i) :
    m.load32 (edi + off) = headerField disk sector off := by
  have hbyte (i : Nat) (hi : i < 4) :
      m.byte (edi + off + i) = disk sector (off + i) := by
    rw [Nat.add_assoc, h _ (by omega)]
  have hfirst := hbyte 0 (by decide)
  simp only [Nat.add_zero] at hfirst
  simp only [headerField, load32, hfirst, hbyte 1 (by decide),
    hbyte 2 (by decide), hbyte 3 (by decide)]

/-- What has been loaded and the LDT, with `n` descriptors. -/
structure Loaded (disk : Disk) (sector tcb ldt edi n : Nat) (m : ByteMem) :
    Prop where
  ldt : Ldt m tcb ldt n
  multiple : m.load32 (edi + 0x0c) = headerField disk sector 0x0c
  entries : m.load32 (edi + 0x24) = headerField disk sector 0x24

variable {sector edi : Nat}

theorem loadImage_spec (h : Started disk sector tcb s)
    (hedi : edi = align4 (s.ram_alloc + 160)) : ∃ m,
    loadImage disk sector tcb s = (edi, { s with
      mem := m
      ram_alloc := edi + imageSize disk sector }) ∧
      Loaded disk sector tcb s.ram_alloc edi 0 m := by
  have htcb := h.tcb
  have hmemory := h.memory
  obtain ⟨hlo, hhi, hmod⟩ := align4_spec (a := s.ram_alloc + 160) (by omega)
  rw [← hedi] at hlo hhi hmod
  have hfirst : align4 ((s.ram_alloc + 160) % 2 ^ 32) = edi := by
    rw [Nat.mod_eq_of_lt (by omega), hedi]
  have hsize : wholeSectors (headerField disk sector 0) =
      imageSize disk sector := wholeSectors_eq (by omega)
  have hsizeMod := wholeSectors_mod (headerField disk sector 0)
  rw [hsize] at hsizeMod
  have hsecond : align4 ((edi + imageSize disk sector) % 2 ^ 32) =
      edi + imageSize disk sector := by
    rw [Nat.mod_eq_of_lt (by omega)]
    exact align4_of_mod (by omega)
  have hrounds : imageSize disk sector =
      512 * rounds (wholeSectors (headerField disk sector 0) / 512) := rfl
  rw [loadImage]
  simp only [allocate_memory, hfirst, hsize]
  rw [hsize] at hrounds
  have hpos := rounds_pos (imageSize disk sector / 512)
  generalize rounds (imageSize disk sector / 512) = r at hrounds hpos
  rw [hsecond]
  -- the TCB, before the image is read
  let m := ((s.mem.store32 (tcb + 0x0c) s.ram_alloc).store16 (tcb + 0x0a)
    0xffff).store32 (tcb + 0x06) edi
  have hm : Ldt m tcb s.ram_alloc 0 := by
    constructor
    · simp only [m]
      rw [load32_store32_apart (by omega), load32_store16_apart (by omega),
        load32_store32_same (by omega)]
    · simp only [m]
      rw [load16_store32_apart (by omega), load16_store16_same]
  have hfield : m.load32 (tcb + 0x06) = edi := load32_store32_same (by omega)
  obtain ⟨hout, hdata⟩ := readSectors_spec disk r sector edi m (by omega)
  have hbytes (i : Nat) (hi : i < 512) := hdata i hi hpos
  refine ⟨readSectors disk r sector edi m, ?_, ?_,
    load32_header (by decide) hbytes, load32_header (by decide) hbytes⟩
  · rw [hout.load32 fun b hle hlt => by omega, hfield]
  · exact hm.outside hout fun b hle hlt => by omega

/-- The fields that get a selector are apart from all that is read again. -/
def SegmentField (tcb edi field : Nat) : Prop :=
  field = tcb + 0x44 ∨ field = edi + 0x04 ∨ field = edi + 0x08 ∨
    field = edi + 0x14 ∨ field = edi + 0x1c

theorem outside_fields (fields : List Nat) (v : Nat) (m : ByteMem) :
    Outside (fun b => ∃ f ∈ fields, f ≤ b ∧ b < f + 2) m
      (fields.foldl (fun m field => m.store16 field v) m) := by
  induction fields generalizing m with
  | nil => exact Outside.refl _ m
  | cons field fields ih =>
      rw [List.foldl_cons]
      refine Outside.trans (outside_store16 (fun b hle hlt =>
        ⟨field, List.mem_cons_self, hle, hlt⟩) _ _) ((ih _).mono ?_)
      intro b ⟨f, hf, hb⟩
      exact ⟨f, List.mem_cons_of_mem field hf, hb⟩

theorem userSegment_spec (h : Loaded disk sector tcb ldt edi n s.mem)
    (hn : n < 20) (htcb : tcb + 0x46 ≤ ldt) (hedi : ldt + 160 ≤ edi)
    (base limit : Nat) (attr : BitVec 32) (fields : List Nat)
    (hfields : ∀ f ∈ fields, SegmentField tcb edi f) : ∃ m,
    userSegment base limit attr tcb fields s = { s with mem := m } ∧
      Loaded disk sector tcb ldt edi (n + 1) m := by
  obtain ⟨m, hfill, hldt, -, hout⟩ := fill_descriptor_spec h.ldt hn (by omega)
    (make_seg_descriptor (BitVec.ofNat 32 base) (BitVec.ofNat 32 limit) attr)
  have hstore := outside_fields fields ((8 * n + 4) ||| 3) m
  have hboth := hout.mono (Q := fun b => Filling tcb ldt n b ∨
    ∃ f, SegmentField tcb edi f ∧ f ≤ b ∧ b < f + 2) fun b hb => Or.inl hb
  have hrest := hstore.mono (Q := fun b => Filling tcb ldt n b ∨
      ∃ f, SegmentField tcb edi f ∧ f ≤ b ∧ b < f + 2) fun b ⟨f, hf, hb⟩ =>
    Or.inr ⟨f, hfields f hf, hb⟩
  have hheader {off : Nat} (hoff : off = 0x0c ∨ off = 0x24) :
      ∀ b, edi + off ≤ b → b < edi + off + 4 → ¬ (Filling tcb ldt n b ∨
        ∃ f, SegmentField tcb edi f ∧ f ≤ b ∧ b < f + 2) := by
    rintro b hle hlt (hfilling | ⟨f, hf, hb⟩)
    · rw [Filling] at hfilling
      omega
    · rw [SegmentField] at hf
      omega
  refine ⟨_, by rw [userSegment, hfill], ?_, ?_, ?_⟩
  · refine hldt.outside hstore fun b hle hlt ⟨f, hf, hb⟩ => ?_
    have hf := hfields f hf
    rw [SegmentField] at hf
    omega
  · rw [(hboth.trans hrest).load32 (hheader (Or.inl rfl)), h.multiple]
  · rw [(hboth.trans hrest).load32 (hheader (Or.inr rfl)), h.entries]

/-- The header, the code and the data. -/
theorem segments_spec (h : Loaded disk sector tcb ldt edi 0 s.mem)
    (htcb : tcb + 0x46 ≤ ldt) (hedi : ldt + 160 ≤ edi) : ∃ m,
    dataSegment edi tcb (codeSegment edi tcb (headerSegment edi tcb s)) =
        { s with mem := m } ∧
      Loaded disk sector tcb ldt edi 3 m := by
  obtain ⟨m₁, h₁, hl₁⟩ : ∃ m, headerSegment edi tcb s = { s with mem := m } ∧
      Loaded disk sector tcb ldt edi 1 m :=
    userSegment_spec h (by decide) htcb hedi _ _ _ _ (by simp [SegmentField])
  obtain ⟨m₂, h₂, hl₂⟩ : ∃ m, codeSegment edi tcb { s with mem := m₁ } =
      { s with mem := m } ∧ Loaded disk sector tcb ldt edi 2 m :=
    userSegment_spec hl₁ (by decide) htcb hedi _ _ _ _ (by simp [SegmentField])
  obtain ⟨m₃, h₃, hl₃⟩ : ∃ m, dataSegment edi tcb { s with mem := m₂ } =
      { s with mem := m } ∧ Loaded disk sector tcb ldt edi 3 m :=
    userSegment_spec hl₂ (by decide) htcb hedi _ _ _ _ (by simp [SegmentField])
  exact ⟨m₃, by rw [h₁, h₂, h₃], hl₃⟩

/-- The stack of the program, with its memory. -/
theorem stackSegment_spec (h : Loaded disk sector tcb ldt edi 3 s.mem)
    (htcb : tcb + 0x46 ≤ ldt) (hedi : ldt + 160 ≤ edi)
    (hmod : s.ram_alloc % 4 = 0)
    (hroom : s.ram_alloc + stackSize disk sector < 2 ^ 32) : ∃ m,
    stackSegment edi tcb s = { s with
      mem := m
      ram_alloc := s.ram_alloc + stackSize disk sector } ∧
      Loaded disk sector tcb ldt edi 4 m := by
  have hsize : 4096 * headerField disk sector 0x0c % 2 ^ 32 =
      stackSize disk sector := Nat.mod_eq_of_lt (by
    rw [stackSize] at hroom
    omega)
  have halloc : align4 ((s.ram_alloc + stackSize disk sector) % 2 ^ 32) =
      s.ram_alloc + stackSize disk sector := by
    rw [Nat.mod_eq_of_lt hroom, align4_of_mod]
    rw [stackSize]
    omega
  obtain ⟨m, hm, hl⟩ := userSegment_spec (s := { s with
    ram_alloc := s.ram_alloc + stackSize disk sector }) h (by decide) htcb hedi
    ((stackSize disk sector + s.ram_alloc) % 2 ^ 32)
    ((0x000fffff + (2 ^ 32 - headerField disk sector 0x0c)) % 2 ^ 32)
    0x00c0f600 [edi + 0x08] (by simp [SegmentField])
  refine ⟨m, ?_, hl⟩
  simp only [stackSegment, allocate_memory, h.multiple, hsize, halloc]
  exact hm

/-- Loading the program leaves four descriptors in the LDT, and memory for
what follows. -/
theorem loadProgram_spec (h : Started disk sector tcb s)
    (salt : List SaltItem) : ∃ m a,
    loadProgram disk salt sector tcb s = { s with
      mem := m
      ram_alloc := a } ∧
      Ldt m tcb s.ram_alloc 4 ∧ s.ram_alloc + 160 ≤ a ∧ a % 4 = 0 ∧
      a + 3 * 4096 + 104 < 2 ^ 32 := by
  have htcb := h.tcb
  have hmemory := h.memory
  have hsalt := h.salt
  obtain ⟨hlo, hhi, hmod⟩ := align4_spec (a := s.ram_alloc + 160) (by omega)
  have himage : imageSize disk sector % 4 = 0 := by
    rw [imageSize]
    omega
  have hstack : stackSize disk sector % 4 = 0 := by
    rw [stackSize]
    omega
  obtain ⟨m₀, hload, hl₀⟩ := loadImage_spec h rfl
  generalize align4 (s.ram_alloc + 160) = edi at *
  obtain ⟨m₁, hsegments, hl₁⟩ := segments_spec (s := { s with
    mem := m₀
    ram_alloc := edi + imageSize disk sector }) hl₀ htcb hlo
  obtain ⟨m₂, huser, hl₂⟩ := stackSegment_spec (s := { s with
    mem := m₁
    ram_alloc := edi + imageSize disk sector }) hl₁ htcb hlo
    (show (edi + imageSize disk sector) % 4 = 0 by omega)
    (show edi + imageSize disk sector + stackSize disk sector < 2 ^ 32 by omega)
  have hstart : (edi + 0x28) % 2 ^ 32 = edi + 0x28 := Nat.mod_eq_of_lt (by
    rw [saltSize] at hsalt
    omega)
  have hout := relocate_outside salt (rounds (headerField disk sector 0x24))
    (edi + 0x28) m₂ (by
      rw [saltSize] at hsalt
      omega)
  refine ⟨relocate salt (rounds (headerField disk sector 0x24)) (edi + 0x28) m₂,
    edi + imageSize disk sector + stackSize disk sector, ?_,
    hl₂.ldt.outside hout fun b hle hlt => by omega, by omega, by omega,
    by omega⟩
  rw [loadProgram, hload]
  simp only [hsegments, huser, relocateSalt, hl₂.entries, hstart]

/-! ## The stacks -/

/-- What the block of a stack with these fields does to memory. -/
structure Created (m m' : ByteMem) (tcb ldt n off base selector : Nat)
    (d : SegDescriptor) : Prop where
  filled : Ldt m' tcb ldt (n + 1)
  base_eq : m'.load32 (tcb + off + 4) = base
  selector_eq : m'.load16 (tcb + off + 8) = selector
  installed : descriptorAt m' (ldt + 8 * n) = d
  outside : Outside (fun b => Filling tcb ldt n b ∨
    (tcb + off ≤ b ∧ b < tcb + off + 14)) m m'

/-- The descriptor with this base. -/
def stackOf (attr : BitVec 32) (base : Nat) : SegDescriptor :=
  make_seg_descriptor (BitVec.ofNat 32 base) 0xffffe attr

/-- A block takes the memory from `a` to `upper` and records whichever of the
two ends it chooses. -/
theorem createStack_spec {off mask a upper base : Nat}
    {choose : Nat → Nat → Nat} (attr : BitVec 32) (h : Ldt s.mem tcb ldt n)
    (hn : n < 20) (htcb : tcb + 0x46 ≤ ldt) (hoff : 0x1a ≤ off)
    (hend : off + 14 ≤ 0x44) (ha : s.ram_alloc = a)
    (hupper : 4096 + a = upper) (hmod : a % 4 = 0) (hroom : upper < 2 ^ 32)
    (hbase : choose upper a = base) (hbase_lt : base < 2 ^ 32)
    (hmask : (8 * n + 4) ||| mask < 2 ^ 16) : ∃ m,
    createStack off choose attr mask tcb s = { s with
      mem := m
      ram_alloc := upper } ∧
      Created s.mem m tcb ldt n off base ((8 * n + 4) ||| mask)
        (stackOf attr upper) := by
  have halloc : align4 ((a + 4096) % 2 ^ 32) = upper := by
    rw [Nat.add_comm, hupper, Nat.mod_eq_of_lt hroom, align4_of_mod (by omega)]
  have hend : (4096 + a) % 2 ^ 32 = upper := by
    rw [hupper, Nat.mod_eq_of_lt hroom]
  -- the fields in front of the descriptor
  let m₁ := ((s.mem.store32 (tcb + off) 4096).store32 (tcb + off)
    ((s.mem.store32 (tcb + off) 4096).load32 (tcb + off) / 2 ^ 12)).store32
      (tcb + off + 4) base
  have hfields : Outside (fun b => tcb + off ≤ b ∧ b < tcb + off + 8)
      s.mem m₁ := by
    refine Outside.trans (Outside.trans (outside_store32 ?_ _ _)
      (outside_store32 ?_ _ _)) (outside_store32 ?_ _ _)
    all_goals exact fun b hle hlt => by omega
  have hrecorded : m₁.load32 (tcb + off + 4) = base :=
    load32_store32_same hbase_lt
  obtain ⟨m₂, hfill, hldt, hslot, hout⟩ := fill_descriptor_spec
    (s := { s with
      mem := m₁
      ram_alloc := upper })
    (h.outside hfields fun b hle hlt => by omega) hn (by omega)
    (stackOf attr upper)
  -- and those behind it
  let m₃ := (m₂.store16 (tcb + off + 8) ((8 * n + 4) ||| mask)).store32
    (tcb + off + 10) 0
  have hbehind : Outside (fun b => tcb + off + 8 ≤ b ∧ b < tcb + off + 14)
      m₂ m₃ := by
    refine Outside.trans (outside_store16 ?_ _ _) (outside_store32 ?_ _ _)
    all_goals exact fun b hle hlt => by omega
  refine ⟨m₃, ?_, hldt.outside hbehind fun b hle hlt => by omega, ?_, ?_, ?_,
    ?_⟩
  · simp only [createStack, allocate_memory, ha, halloc, hend, hbase]
    rw [stackOf] at hfill
    rw [hfill]
  · rw [hbehind.load32 fun b hle hlt => by omega,
      hout.load32 fun b hle hlt => ?_, hrecorded]
    rw [Filling]
    omega
  · simp only [m₃]
    rw [load16_store32_apart (by omega), load16_store16_same,
      Nat.mod_eq_of_lt hmask]
  · rw [descriptorAt_outside hbehind fun b hle hlt => by omega, hslot]
  · refine Outside.trans (hfields.mono fun b hb => Or.inr ⟨hb.1, by omega⟩)
      (Outside.trans (hout.mono fun b hb => Or.inl hb)
        (hbehind.mono fun b hb => Or.inr ⟨by omega, hb.2⟩))

/-! ## The tables -/

theorem set_up_gdt_descriptor_outside (h : s.gdtBase + 2 ^ 16 + 8 ≤ tcb)
    (d : SegDescriptor) : Outside (fun b => b < tcb) s.mem
      (set_up_gdt_descriptor d s).2.mem := by
  rw [set_up_gdt_descriptor]
  exact outside_storeDescriptor (fun b hle hlt => by omega) _ _

/-- Above the TCB the TSS gets the selectors of the three stacks. -/
theorem fillTss_spec {tss : Nat} (h : tcb + 0x46 ≤ tss) (m : ByteMem) :
    (∀ k < 3, (fillTss tcb tss m).load16 (tss + 8 + 8 * k) =
      m.load16 (tcb + 0x22 + 14 * k)) ∧
    Outside (fun b => tss ≤ b ∧ b < tss + 104) m (fillTss tcb tss m) := by
  constructor
  · intro k hk
    have hlt (m : ByteMem) (a : Nat) : m.load16 a % 2 ^ 16 = m.load16 a :=
      Nat.mod_eq_of_lt (load16_lt m a)
    have hcases : k = 0 ∨ k = 1 ∨ k = 2 := by omega
    rcases hcases with rfl | rfl | rfl
    all_goals
      simp (disch := omega) only [fillTss, copy16, copy32,
        load16_store16_apart, load16_store32_apart, load16_store16_same, hlt,
        Nat.add_assoc, Nat.reduceAdd, Nat.reduceMul]
  · simp only [fillTss, copy16, copy32]
    intro b hb
    simp (disch := omega) only [store16_apart, store32_apart]

theorem registerLdt_outside (h : s.gdtBase + 2 ^ 16 + 8 ≤ tcb) :
    Outside (fun b => b < tcb ∨ (tcb + 0x10 ≤ b ∧ b < tcb + 0x1a)) s.mem
      (registerLdt tcb s).mem := by
  rw [registerLdt]
  refine Outside.trans ((set_up_gdt_descriptor_outside h _).mono fun b hb =>
    Or.inl hb) (outside_store16 (fun b hle hlt => Or.inr ⟨hle, by omega⟩) _ _)

theorem registerTss_outside (h : s.gdtBase + 2 ^ 16 + 8 ≤ tcb) :
    Outside (fun b => b < tcb ∨ (tcb + 0x18 ≤ b ∧ b < tcb + 0x1a)) s.mem
      (registerTss tcb s).mem := by
  rw [registerTss]
  refine Outside.trans ((set_up_gdt_descriptor_outside h _).mono fun b hb =>
    Or.inl hb) (outside_store16 (fun b hle hlt => Or.inr ⟨hle, by omega⟩) _ _)

theorem createTss_spec (h : tcb + 0x46 ≤ s.ram_alloc)
    (hlt : s.ram_alloc < 2 ^ 32) :
    (createTss tcb s).mem.load32 (tcb + 0x14) = s.ram_alloc ∧
    (∀ k < 3, (createTss tcb s).mem.load16 (s.ram_alloc + 8 + 8 * k) =
      s.mem.load16 (tcb + 0x22 + 14 * k)) ∧
    Outside (fun b => (tcb + 0x10 ≤ b ∧ b < tcb + 0x1a) ∨
      (s.ram_alloc ≤ b ∧ b < s.ram_alloc + 104)) s.mem
        (createTss tcb s).mem := by
  simp only [createTss, allocate_memory]
  generalize (_ + (2 ^ 16 - 1)) % 2 ^ 16 = limit
  have hfields : Outside (fun b => tcb + 0x10 ≤ b ∧ b < tcb + 0x1a) s.mem
      (((s.mem.store16 (tcb + 0x12) 104).store16 (tcb + 0x12) limit).store32
        (tcb + 0x14) s.ram_alloc) := by
    refine Outside.trans (Outside.trans (outside_store16 ?_ _ _)
      (outside_store16 ?_ _ _)) (outside_store32 ?_ _ _)
    all_goals exact fun b hle hlt => by omega
  have hfield : (((s.mem.store16 (tcb + 0x12) 104).store16 (tcb + 0x12)
      limit).store32 (tcb + 0x14) s.ram_alloc).load32 (tcb + 0x14) =
        s.ram_alloc := load32_store32_same hlt
  generalize ((s.mem.store16 (tcb + 0x12) 104).store16 (tcb + 0x12)
    limit).store32 (tcb + 0x14) s.ram_alloc = m at hfields hfield
  obtain ⟨hselectors, hout⟩ := fillTss_spec h m
  refine ⟨?_, fun k hk => ?_, ?_⟩
  · rw [hout.load32 fun b hle hlt => by omega, hfield]
  · rw [hselectors k hk, hfields.load16 (by omega) (by omega)]
  · exact (hfields.mono fun b hb => Or.inl hb).trans
      (hout.mono fun b hb => Or.inr hb)

/-- What comes behind the stacks registers the selectors in the TSS and leaves
their fields alone. -/
theorem tables_spec (hgdt : s.gdtBase + 2 ^ 16 + 8 ≤ tcb)
    (h : tcb + 0x46 ≤ s.ram_alloc) (hlt : s.ram_alloc < 2 ^ 32)
    (hm : m = (registerTss tcb (createTss tcb (registerLdt tcb s))).mem) :
    (∀ k < 3, m.load16 (m.load32 (tcb + 0x14) + 8 + 8 * k) =
      m.load16 (tcb + 0x22 + 14 * k)) ∧
    Outside (fun b => b < tcb ∨ (tcb + 0x10 ≤ b ∧ b < tcb + 0x1a) ∨
      (s.ram_alloc ≤ b ∧ b < s.ram_alloc + 104)) s.mem m := by
  have hldt := registerLdt_outside hgdt
  obtain ⟨hbase, hselectors, htss⟩ := createTss_spec (s := registerLdt tcb s)
    h hlt
  have hlast := registerTss_outside (s := createTss tcb (registerLdt tcb s))
    hgdt
  rw [← hm] at hlast
  have hram : (registerLdt tcb s).ram_alloc = s.ram_alloc := rfl
  rw [hram] at hbase hselectors htss
  have hall : Outside (fun b => b < tcb ∨ (tcb + 0x10 ≤ b ∧ b < tcb + 0x1a) ∨
      (s.ram_alloc ≤ b ∧ b < s.ram_alloc + 104)) s.mem m := by
    refine Outside.trans (hldt.mono ?_) (Outside.trans (htss.mono ?_)
      (hlast.mono ?_))
    all_goals
      intro b hb
      omega
  refine ⟨fun k hk => ?_, hall⟩
  rw [hlast.load32 (fun b hle hlt => by omega), hbase,
    hlast.load16 (by omega) (by omega), hselectors k hk,
    hall.load16 (by omega) (by omega), hldt.load16 (by omega) (by omega)]

/-! ## The result -/

/-- Where memory may change once stack `k` has been created: but for its own
fields and its descriptor, and those before it. -/
def Later (tcb ldt k b : Nat) : Prop :=
  b < tcb + 0x1a ∨ (tcb + 0x28 + 14 * k ≤ b ∧ b < tcb + 0x44) ∨
    ldt + 8 * (5 + k) ≤ b

/-- What is registered in the end is what the block of a stack has left. -/
theorem registered_iff {k base selector : Nat} {d : SegDescriptor}
    {m₁ m₂ : ByteMem} (hk : k < 3) (htcb : tcb + 0x46 ≤ ldt)
    (h : Created m m₁ tcb ldt (4 + k) (0x1a + 14 * k) base selector d)
    (hout : Outside (Later tcb ldt k) m₁ m₂)
    (hldt : m₂.load32 (tcb + 0x0c) = ldt)
    (htss : ∀ k < 3, m₂.load16 (m₂.load32 (tcb + 0x14) + 8 + 8 * k) =
      m₂.load16 (tcb + 0x22 + 14 * k)) :
    Registered m₂ tcb k ↔ Selector.ofNat selector = ⟨4 + k, true, k⟩ ∧
      d.dpl = k ∧ BitVec.ofNat 32 base = d.base := by
  have hfields (b : Nat) (hle : tcb + 0x1e + 14 * k ≤ b)
      (hlt : b < tcb + 0x24 + 14 * k) : ¬ Later tcb ldt k b := by
    rw [Later]
    omega
  have hbase : m₂.load32 (tcb + 0x1e + 14 * k) = base := by
    have hplace : tcb + 0x1e + 14 * k = tcb + (0x1a + 14 * k) + 4 := by omega
    rw [hout.load32 fun b hle hlt => hfields b hle (by omega), hplace,
      h.base_eq]
  have hselector : m₂.load16 (tcb + 0x22 + 14 * k) = selector := by
    have hplace : tcb + 0x22 + 14 * k = tcb + (0x1a + 14 * k) + 8 := by omega
    rw [hout.load16 (hfields _ (by omega) (by omega))
      (hfields _ (by omega) (by omega)), hplace, h.selector_eq]
  have hdescriptor : descriptorAt m₂ (ldt + 8 * (4 + k)) = d := by
    rw [descriptorAt_outside hout fun b hle hlt => ?_, h.installed]
    rw [Later]
    omega
  constructor
  · intro hr
    have hdpl := hr.dpl
    have hsame := hr.base
    rw [hldt, hdescriptor] at hdpl hsame
    rw [hbase] at hsame
    exact ⟨hselector ▸ hr.selector, hdpl, hsame⟩
  · intro ⟨hsel, hdpl, hsame⟩
    refine ⟨hselector.symm ▸ hsel, htss k hk, ?_, ?_⟩
    · rw [hldt, hdescriptor, hdpl]
    · rw [hldt, hdescriptor, hbase, hsame]

/-- The block of a stack comes later for those before it. -/
theorem Created.later {k j base selector : Nat} {d : SegDescriptor}
    (h : Created m m' tcb ldt (5 + j) (0x28 + 14 * j) base selector d)
    (hj : j < 2) (hkj : k ≤ j) : Outside (Later tcb ldt k) m m' := by
  refine h.outside.mono fun b hb => ?_
  simp only [Filling, Later] at hb ⊢
  omega

/-- A descriptor of the blocks has its base and its level. -/
theorem stackOf_spec (base : Nat) (attr : BitVec 32) (attr₁₆ : BitVec 16)
    (h : attr = (attr₁₆.setWidth 32 &&& 0xF0FF#32) <<< 8) :
    (stackOf attr base).base = BitVec.ofNat 32 base ∧
      (stackOf attr base).dpl = (attr₁₆ >>> 5 &&& 3#16).toNat := by
  have hpack : stackOf attr base =
      SegDescriptor.pack (BitVec.ofNat 32 base) 0xffffe attr₁₆ := by
    rw [stackOf, h]
    exact make_seg_descriptor_eq (BitVec.ofNat 32 base) 0xffffe attr₁₆
  rw [hpack]
  exact ⟨SegDescriptor.base_pack .., SegDescriptor.dpl_pack ..⟩

variable {a a₁ a₂ a₃ : Nat}

/-- The three blocks. The last selector has ten ored to it, and its base is
the lower end. -/
theorem blocks_spec (h : Ldt s.mem tcb ldt 4) (htcb : tcb + 0x46 ≤ ldt)
    (ha : s.ram_alloc = a) (h₁ : 4096 + a = a₁) (h₂ : 4096 + a₁ = a₂)
    (h₃ : 4096 + a₂ = a₃) (hmod : a % 4 = 0) (hroom : a₃ < 2 ^ 32) :
    ∃ m₁ m₂ m₃,
      createStack2 tcb (createStack1 tcb (createStack0 tcb s)) = { s with
        mem := m₃
        ram_alloc := a₃ } ∧
      Created s.mem m₁ tcb ldt 4 0x1a a₁ 36 (stackOf 0x00c09600 a₁) ∧
      Created m₁ m₂ tcb ldt 5 0x28 a₂ 45 (stackOf 0x00c0b600 a₂) ∧
      Created m₂ m₃ tcb ldt 6 0x36 a₂ 62 (stackOf 0x00c0d600 a₃) := by
  obtain ⟨m₁, hs₁, hc₁⟩ : ∃ m, createStack0 tcb s = { s with
      mem := m
      ram_alloc := a₁ } ∧
      Created s.mem m tcb ldt 4 0x1a a₁ 36 (stackOf 0x00c09600 a₁) :=
    createStack_spec 0x00c09600 h (by decide) htcb (by decide) (by decide) ha h₁
      hmod (by omega) rfl (by omega) (by decide)
  obtain ⟨m₂, hs₂, hc₂⟩ : ∃ m, createStack1 tcb { s with
      mem := m₁
      ram_alloc := a₁ } = { s with
        mem := m
        ram_alloc := a₂ } ∧
      Created m₁ m tcb ldt 5 0x28 a₂ 45 (stackOf 0x00c0b600 a₂) :=
    createStack_spec 0x00c0b600 hc₁.filled (by decide) htcb (by decide)
      (by decide) rfl h₂ (show a₁ % 4 = 0 by omega) (by omega) rfl (by omega)
      (by decide)
  obtain ⟨m₃, hs₃, hc₃⟩ : ∃ m, createStack2 tcb { s with
      mem := m₂
      ram_alloc := a₂ } = { s with
        mem := m
        ram_alloc := a₃ } ∧
      Created m₂ m tcb ldt 6 0x36 a₂ 62 (stackOf 0x00c0d600 a₃) :=
    createStack_spec 0x00c0d600 hc₂.filled (by decide) htcb (by decide)
      (by decide) rfl h₃ (show a₂ % 4 = 0 by omega) hroom rfl (by omega)
      (by decide)
  exact ⟨m₁, m₂, m₃, by rw [hs₁, hs₂, hs₃], hc₁, hc₂, hc₃⟩

/-- The stacks that are registered, and the one that is not. -/
theorem stacks_spec (h : Started disk sector tcb s)
    (hm : m = (load_relocate_program disk salt sector tcb s).mem) :
    Registered m tcb 0 ∧ Registered m tcb 1 ∧ ¬ Registered m tcb 2 := by
  have htcb := h.tcb
  have hgdt := h.gdt
  obtain ⟨m₀, a, hload, hldt, hlo, hmod, hroom⟩ := loadProgram_spec h salt
  obtain ⟨a₁, ha₁⟩ : ∃ a₁, 4096 + a = a₁ := ⟨_, rfl⟩
  obtain ⟨a₂, ha₂⟩ : ∃ a₂, 4096 + a₁ = a₂ := ⟨_, rfl⟩
  obtain ⟨a₃, ha₃⟩ : ∃ a₃, 4096 + a₂ = a₃ := ⟨_, rfl⟩
  obtain ⟨m₁, m₂, m₃, hblocks, h₀, h₁, h₂⟩ := blocks_spec (s := { s with
    mem := m₀
    ram_alloc := a }) hldt htcb rfl ha₁ ha₂ ha₃ hmod (by omega)
  have hrun : load_relocate_program disk salt sector tcb s =
      registerTss tcb (createTss tcb (registerLdt tcb { s with
        mem := m₃
        ram_alloc := a₃ })) := by
    simp only [load_relocate_program, hload, hblocks]
  obtain ⟨htss, hout⟩ := tables_spec (s := { s with
    mem := m₃
    ram_alloc := a₃ }) hgdt (show tcb + 0x46 ≤ a₃ by omega)
    (show a₃ < 2 ^ 32 by omega) (hm.trans (congrArg Core.mem hrun))
  have hend : s.ram_alloc + 160 ≤ a₃ := by omega
  have htables (k : Nat) (hk : k < 3) :
      Outside (Later tcb s.ram_alloc k) m₃ m := by
    refine hout.mono fun b hb => ?_
    simp only [Later] at hb ⊢
    omega
  have hbase : m.load32 (tcb + 0x0c) = s.ram_alloc := by
    rw [hout.load32 fun b hle hlt hb => ?_, h₂.filled.base]
    simp only at hb
    omega
  refine ⟨?_, ?_, fun hreg => ?_⟩
  · obtain ⟨hstart, hlevel⟩ := stackOf_spec a₁ 0x00c09600 0xc096 rfl
    have hlater : Outside (Later tcb s.ram_alloc 0) m₁ m :=
      Outside.trans (h₁.later (j := 0) (by decide) (by decide))
        (Outside.trans (h₂.later (j := 1) (by decide) (by decide))
          (htables 0 (by decide)))
    exact (registered_iff (by decide) htcb h₀ hlater hbase htss).2
      ⟨rfl, hlevel, hstart.symm⟩
  · obtain ⟨hstart, hlevel⟩ := stackOf_spec a₂ 0x00c0b600 0xc0b6 rfl
    have hlater : Outside (Later tcb s.ram_alloc 1) m₂ m :=
      Outside.trans (h₂.later (j := 1) (by decide) (by decide))
        (htables 1 (by decide))
    exact (registered_iff (by decide) htcb h₁ hlater hbase htss).2
      ⟨rfl, hlevel, hstart.symm⟩
  · obtain ⟨hsel, -, -⟩ := (registered_iff (by decide) htcb h₂
      (htables 2 (by decide)) hbase htss).1 hreg
    exact absurd hsel (by decide)

/-- Whatever the program is, the stack of level 2 is not registered, and the
other two are. -/
theorem load_relocate_program_stacks (h : Started disk sector tcb s)
    (salt : List SaltItem) :
    (¬ ∀ k < 3,
      Registered (load_relocate_program disk salt sector tcb s).mem tcb k) ∧
    ∀ k < 3,
      Registered (load_relocate_program disk salt sector tcb s).mem tcb k ↔
        k ≠ 2 := by
  obtain ⟨h₀, h₁, h₂⟩ := stacks_spec h rfl
  refine ⟨fun hall => h₂ (hall 2 (by decide)), fun k hk => ?_⟩
  have hcases : k = 0 ∨ k = 1 ∨ k = 2 := by omega
  rcases hcases with rfl | rfl | rfl
  · exact iff_of_true h₀ (by decide)
  · exact iff_of_true h₁ (by decide)
  · exact iff_of_false h₂ (by decide)

/-- A program of one sector: its size, the header, a stack of 4 KB, the code,
the data and one entry in its SALT. -/
def smallProgram : Disk := fun _ i =>
  match i with
  | 0x01 => 0x02 -- 512
  | 0x04 => 0x28
  | 0x05 => 0x01 -- 0x128
  | 0x0c => 0x01
  | 0x14 => 0x28
  | 0x15 => 0x01 -- 0x128
  | 0x18 => 0x20
  | 0x1c => 0x48
  | 0x1d => 0x01 -- 0x148
  | 0x20 => 0x10
  | 0x24 => 0x01
  | _ => 0

/-- The first task: eight descriptors and four gates in the GDT of the boot
sector, and the first TCB. -/
def firstTask : Core where
  mem := ⟨fun _ => 0⟩
  ram_alloc := 0x00100048
  gdtBase := 0x7e00
  gdtLimit := 0x5f

theorem firstTask_started : Started smallProgram 50 0x00100000 firstTask where
  gdt := by decide
  tcb := by decide
  memory := by decide
  salt := by decide

theorem load_relocate_program_stacks_small :
    (¬ ∀ k < 3, Registered (load_relocate_program smallProgram []
      50 0x00100000 firstTask).mem 0x00100000 k) ∧
    ∀ k < 3, Registered (load_relocate_program smallProgram []
      50 0x00100000 firstTask).mem 0x00100000 k ↔ k ≠ 2 :=
  load_relocate_program_stacks firstTask_started []

theorem stacks_not_registered : ¬ ∀ (disk : Disk) (salt : List SaltItem)
    (sector tcb : Nat) (s : Core), Started disk sector tcb s → ∀ k < 3,
      Registered (load_relocate_program disk salt sector tcb s).mem tcb k := by
  intro hall
  obtain ⟨-, -, h₂⟩ := stacks_spec firstTask_started rfl
  exact h₂ (hall smallProgram [] 50 0x00100000 firstTask firstTask_started 2
    (by decide))

end LearningLinux.KernelPrivilege
