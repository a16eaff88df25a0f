import LearningLinux.Lib.ByteMem
import LearningLinux.Lib.SegDescriptor

/-!
# The subroutines of `core.asm`

What `load_relocate_program` calls. Memory is the flat segment of 4 GB; the
variables of the core and the register of the GDT are apart from it. A
register is a number below 2^32, and what a subroutine pushes and pops again
is not in its result.

Addresses are sums that do not wrap, since everything that the core hands out
is below 2^32; what is computed in a register does wrap.
-/

namespace LearningLinux.KernelPrivilege

open LearningLinux.Lib LearningLinux.Lib.ByteMem

/-! ## The code -/

structure Core where
  mem : ByteMem
  ram_alloc : Nat
  gdtBase : Nat
  gdtLimit : Nat

/-- The sectors of the disk, with 512 bytes each. -/
abbrev Disk : Type := Nat → Nat → UInt8

/-- Where the next allocation starts: `and`, `add`, `test`, `cmovnz`. -/
def align4 (eax : Nat) : Nat :=
  if eax % 4 = 0 then eax else (eax / 4 * 4 + 4) % 2 ^ 32

/-- The address is returned in `ecx`. -/
def allocate_memory (ecx : Nat) (s : Core) : Nat × Core :=
  (s.ram_alloc, { s with
    ram_alloc := align4 ((s.ram_alloc + ecx) % 2 ^ 32) })

/-- `bswap` -/
def bswap (r : BitVec 32) : BitVec 32 :=
  (r <<< 24) ||| ((r &&& 0xFF00#32) <<< 8) ||| ((r >>> 8) &&& 0xFF00#32) |||
    (r >>> 24)

/-- The descriptor is `edx:eax`. -/
def make_seg_descriptor (eax ebx ecx : BitVec 32) : SegDescriptor :=
  let edx := eax
  let eax := eax <<< 16
  let eax := eax ||| (ebx &&& 0xFFFF#32) -- or ax,bx
  let edx := edx &&& 0xFFFF0000#32
  let edx := edx.rotateLeft 8
  let edx := bswap edx
  let ebx := ebx &&& 0xFFFF0000#32 -- xor bx,bx
  let edx := edx ||| ebx
  ⟨eax, edx ||| ecx⟩

/-- The two stores of a descriptor. -/
def storeDescriptor (m : ByteMem) (a : Nat) (d : SegDescriptor) : ByteMem :=
  (m.store32 a d.low.toNat).store32 (a + 4) d.high.toNat

/-- The selector of the last descriptor of a table with this limit. -/
def lastSelector (limit : Nat) : Nat := limit / 8 * 8 % 2 ^ 16

/-- The selector is returned in `cx`. -/
def set_up_gdt_descriptor (d : SegDescriptor) (s : Core) : Nat × Core :=
  let ebx := (s.gdtLimit + 1) % 2 ^ 16
  let limit := (s.gdtLimit + 8) % 2 ^ 16
  (lastSelector limit, { s with
    mem := storeDescriptor s.mem (s.gdtBase + ebx) d
    gdtLimit := limit })

/-- `ebx` is the address of the TCB, and the selector is returned in `cx`. -/
def fill_descriptor_in_ldt (d : SegDescriptor) (ebx : Nat) (s : Core) :
    Nat × Core :=
  let edi := s.mem.load32 (ebx + 0x0c)
  let cx := (s.mem.load16 (ebx + 0x0a) + 1) % 2 ^ 16
  let m := storeDescriptor s.mem (edi + cx) d
  let cx := (cx + 8) % 2 ^ 16
  let cx := (cx + (2 ^ 16 - 1)) % 2 ^ 16 -- dec cx
  (lastSelector cx ||| 4, { s with
    mem := m.store16 (ebx + 0x0a) cx })

/-- A sector is read to `ebx`, and `ebx` goes on. -/
def read_hard_disk_0 (disk : Disk) (eax ebx : Nat) (m : ByteMem) :
    Nat × ByteMem :=
  ((ebx + 512) % 2 ^ 32, m.write ebx 512 (disk eax))

/-- How often a `loop` with this in `ecx` goes round. -/
def rounds (ecx : Nat) : Nat := if ecx = 0 then 2 ^ 32 else ecx

/-! ## What they do -/

variable {s : Core} {m m' : ByteMem} {d : SegDescriptor} {tcb ldt n a : Nat}

theorem align4_spec (h : a + 3 < 2 ^ 32) :
    a ≤ align4 a ∧ align4 a ≤ a + 3 ∧ align4 a % 4 = 0 := by
  rw [align4]
  split <;> omega

/-- The descriptor has the base and the limit in their places, and the
attributes where they have been. -/
theorem make_seg_descriptor_eq (base limit : BitVec 32) (attr : BitVec 16) :
    make_seg_descriptor base (limit &&& 0xFFFFF#32)
        ((attr.setWidth 32 &&& 0xF0FF#32) <<< 8) =
      SegDescriptor.pack base limit attr := by
  simp only [make_seg_descriptor, SegDescriptor.pack, bswap,
    SegDescriptor.mk.injEq]
  constructor <;>
    (apply BitVec.eq_of_getLsbD_eq
     intro i hi
     interval_cases i <;> simp [BitVec.getElem_rotateLeft])

/-- The descriptor that is in memory. -/
def descriptorAt (m : ByteMem) (a : Nat) : SegDescriptor :=
  ⟨BitVec.ofNat 32 (m.load32 a), BitVec.ofNat 32 (m.load32 (a + 4))⟩

theorem descriptorAt_store : descriptorAt (storeDescriptor m a d) a = d := by
  have hlow := d.low.isLt
  have hhigh := d.high.isLt
  rw [descriptorAt, storeDescriptor, load32_store32_apart (by omega),
    load32_store32_same hlow, load32_store32_same hhigh, BitVec.ofNat_toNat,
    BitVec.ofNat_toNat]
  rfl

theorem outside_storeDescriptor {P : Nat → Prop}
    (h : ∀ b, a ≤ b → b < a + 8 → P b) (m : ByteMem) (d : SegDescriptor) :
    Outside P m (storeDescriptor m a d) := by
  refine Outside.trans (outside_store32 ?_ _ _) (outside_store32 ?_ _ _)
  · exact fun b hle hlt => h b hle (by omega)
  · exact fun b hle hlt => h b (by omega) (by omega)

theorem descriptorAt_outside {P : Nat → Prop} (h : Outside P m m')
    (ha : ∀ b, a ≤ b → b < a + 8 → ¬ P b) :
    descriptorAt m' a = descriptorAt m a := by
  rw [descriptorAt, descriptorAt, h.load32 fun b hle hlt => ha b hle (by omega),
    h.load32 fun b hle hlt => ha b (by omega) (by omega)]

/-- The TCB has the address of the LDT and the limit of one with `n`
descriptors. -/
structure Ldt (m : ByteMem) (tcb ldt n : Nat) : Prop where
  base : m.load32 (tcb + 0x0c) = ldt
  limit : m.load16 (tcb + 0x0a) = (8 * n + 0xffff) % 2 ^ 16

theorem Ldt.outside {P : Nat → Prop} (h : Ldt m tcb ldt n)
    (hout : Outside P m m')
    (hP : ∀ b, tcb + 0x0a ≤ b → b < tcb + 0x10 → ¬ P b) :
    Ldt m' tcb ldt n where
  base := by
    rw [hout.load32 fun b hle hlt => hP b (by omega) (by omega), h.base]
  limit := by
    rw [hout.load16 (hP _ (by omega) (by omega)) (hP _ (by omega) (by omega)),
      h.limit]

/-- Selectors of descriptors with TI set. -/
theorem lastSelector_or (hn : n < 2 ^ 13) :
    lastSelector (8 * n + 7) ||| 4 = 8 * n + 4 := by
  have hlast : lastSelector (8 * n + 7) = 2 ^ 3 * n := by
    rw [lastSelector]
    omega
  rw [hlast]
  exact (Nat.two_pow_add_eq_or_of_lt (i := 3) (by decide) n).symm

/-- Where a descriptor number `n` is installed. -/
def Filling (tcb ldt n b : Nat) : Prop :=
  (tcb + 0x0a ≤ b ∧ b < tcb + 0x0c) ∨ (ldt + 8 * n ≤ b ∧ b < ldt + 8 * n + 8)

/-- An LDT above the TCB gets one descriptor more. -/
theorem fill_descriptor_spec (h : Ldt s.mem tcb ldt n) (hn : n < 20)
    (habove : tcb + 0x10 ≤ ldt) (d : SegDescriptor) : ∃ m,
    fill_descriptor_in_ldt d tcb s = (8 * n + 4, { s with mem := m }) ∧
      Ldt m tcb ldt (n + 1) ∧ descriptorAt m (ldt + 8 * n) = d ∧
      Outside (Filling tcb ldt n) s.mem m := by
  have hcx : (s.mem.load16 (tcb + 0x0a) + 1) % 2 ^ 16 = 8 * n := by
    rw [h.limit]
    omega
  have hlimit : ((8 * n + 8) % 2 ^ 16 + (2 ^ 16 - 1)) % 2 ^ 16 = 8 * n + 7 := by
    omega
  have hslot : Outside (Filling tcb ldt n) s.mem
      (storeDescriptor s.mem (ldt + 8 * n) d) :=
    outside_storeDescriptor (fun b hle hlt => Or.inr ⟨hle, hlt⟩) _ _
  have hword (m : ByteMem) : Outside
      (fun b => tcb + 0x0a ≤ b ∧ b < tcb + 0x0c) m
        (m.store16 (tcb + 0x0a) (8 * n + 7)) :=
    outside_store16 (fun b hle hlt => ⟨hle, by omega⟩) _ _
  refine ⟨(storeDescriptor s.mem (ldt + 8 * n) d).store16 (tcb + 0x0a)
    (8 * n + 7), ?_, ⟨?_, ?_⟩, ?_, ?_⟩
  · rw [fill_descriptor_in_ldt, h.base, hcx, hlimit, lastSelector_or (by omega)]
  · rw [load32_store16_apart (by omega), hslot.load32 fun b hle hlt => ?_,
      h.base]
    rw [Filling]
    omega
  · rw [load16_store16_same]
    omega
  · rw [descriptorAt_outside (hword _) fun b hle hlt => by omega,
      descriptorAt_store]
  · exact hslot.trans ((hword _).mono fun b hb => Or.inl hb)

end LearningLinux.KernelPrivilege
