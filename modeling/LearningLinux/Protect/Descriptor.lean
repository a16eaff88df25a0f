import LearningLinux.Lib.SegDescriptor

/-!
# Descriptors in `pm.inc` and in `protect.c`

The boot loader has its table from a macro of the assembler, and the kernel
extends it with `init_descriptor`. The macro writes the attributes and the
upper bits of the limit as one word, the function as two bytes with names of
their own; both leave the four bits in the middle of the attributes out. What
either writes is `pack`, so the processor reads the same from both.

The arguments of the macro are numbers: it puts their text into its
expressions, which the assembler evaluates with 64 bits.
-/

namespace LearningLinux.Protect

open LearningLinux.Lib

/-! ## The macro -/

def db (v : BitVec 64) : List (BitVec 8) := [v.setWidth 8]

def dw (v : BitVec 64) : List (BitVec 8) :=
  [v.setWidth 8, (v >>> 8).setWidth 8]

/-- `Descriptor Base, Limit, Attr` -/
def Descriptor (base limit attr : BitVec 64) : List (BitVec 8) :=
  dw (limit &&& 0xFFFF#64) ++
  dw (base &&& 0xFFFF#64) ++
  db ((base >>> 16) &&& 0xFF#64) ++
  dw (((limit >>> 8) &&& 0xF00#64) ||| (attr &&& 0xF0FF#64)) ++
  db ((base >>> 24) &&& 0xFF#64)

/-! ## The functions -/

structure DESCRIPTOR where
  limit_low : BitVec 16
  base_low : BitVec 16
  base_mid : BitVec 8
  attr1 : BitVec 8
  limit_high_attr2 : BitVec 8
  base_high : BitVec 8
deriving DecidableEq, Repr

/-- As the structure is in memory. -/
def DESCRIPTOR.bytes (d : DESCRIPTOR) : List (BitVec 8) :=
  [d.limit_low.setWidth 8, (d.limit_low >>> 8).setWidth 8,
    d.base_low.setWidth 8, (d.base_low >>> 8).setWidth 8,
    d.base_mid, d.attr1, d.limit_high_attr2, d.base_high]

def init_descriptor (base limit : BitVec 32) (attr : BitVec 16) :
    DESCRIPTOR where
  limit_low := (limit &&& 0x0FFFF#32).setWidth 16
  base_low := (base &&& 0x0FFFF#32).setWidth 16
  base_mid := ((base >>> 16) &&& 0x0FF#32).setWidth 8
  attr1 := (attr &&& 0xFF#16).setWidth 8
  limit_high_attr2 := (((limit >>> 16) &&& 0x0F#32) |||
    ((attr.setWidth 32 >>> 8) &&& 0xF0#32)).setWidth 8
  base_high := ((base >>> 24) &&& 0x0FF#32).setWidth 8

def GDT_SIZE : Nat := 128

abbrev Gdt : Type := Vector DESCRIPTOR GDT_SIZE

/-- The parts of the base, put together. -/
def DESCRIPTOR.phys (d : DESCRIPTOR) : BitVec 32 :=
  (d.base_high.setWidth 32 <<< 24) ||| (d.base_mid.setWidth 32 <<< 16) |||
    d.base_low.setWidth 32

/-- `none` is an access behind the table. -/
def seg2phys (gdt : Gdt) (seg : BitVec 16) : Option (BitVec 32) :=
  gdt[(seg >>> 3).toNat]?.map DESCRIPTOR.phys

/-- The selector of a descriptor of the table, with a privilege level. -/
def selector (index rpl : Nat) : BitVec 16 := BitVec.ofNat 16 (8 * index + rpl)

/-! ## What is written -/

variable (base limit : BitVec 32) (attr : BitVec 16)

/-- The function puts into its two bytes what the macro has in one word. -/
theorem init_descriptor_bytes : (init_descriptor base limit attr).bytes =
    Descriptor (base.setWidth 64) (limit.setWidth 64) (attr.setWidth 64) := by
  simp only [DESCRIPTOR.bytes, init_descriptor, Descriptor, dw, db,
    List.cons_append, List.nil_append, List.cons.injEq, and_true]
  refine ⟨?_, ?_, ?_, ?_, ?_, ?_, ?_, ?_⟩ <;>
    (apply BitVec.eq_of_getLsbD_eq
     intro i hi
     interval_cases i <;> simp)

theorem ofBytes_init_descriptor :
    SegDescriptor.ofBytes (init_descriptor base limit attr).bytes =
      some (SegDescriptor.pack base limit attr) := by
  simp only [DESCRIPTOR.bytes, SegDescriptor.ofBytes, Option.some.injEq,
    SegDescriptor.ext_iff, SegDescriptor.dword, SegDescriptor.pack,
    init_descriptor]
  constructor <;>
    (apply BitVec.eq_of_getLsbD_eq
     intro i hi
     interval_cases i <;> simp)

theorem phys_init_descriptor :
    (init_descriptor base limit attr).phys = base := by
  apply BitVec.eq_of_getLsbD_eq
  intro i hi
  interval_cases i <;> simp [DESCRIPTOR.phys, init_descriptor]

theorem selector_index {index rpl : Nat} (hindex : index < GDT_SIZE)
    (hrpl : rpl < 4) : (selector index rpl >>> 3).toNat = index := by
  rw [GDT_SIZE] at hindex
  rw [selector, BitVec.toNat_ushiftRight, BitVec.toNat_ofNat,
    Nat.shiftRight_eq_div_pow]
  omega

/-- A descriptor that has been put into the table is found by its selector,
whatever the level. -/
theorem seg2phys_selector {gdt : Gdt} {index rpl : Nat}
    (hindex : index < GDT_SIZE) (hrpl : rpl < 4) :
    seg2phys (gdt.set index (init_descriptor base limit attr) hindex)
      (selector index rpl) = some base := by
  rw [seg2phys, selector_index hindex hrpl, Vector.getElem?_set_self,
    Option.map_some, phys_init_descriptor]

/-- The function writes the bytes of the macro. The processor finds the base,
the limit and the attributes in them but for their middle four bits, and
`seg2phys` finds the base. -/
theorem descriptor_encodings {base limit : BitVec 32} (attr : BitVec 16)
    (hlimit : limit < 2 ^ 20) (gdt : Gdt) {index rpl : Nat}
    (hindex : index < GDT_SIZE) (hrpl : rpl < 4) :
    let d := init_descriptor base limit attr
    d.bytes = Descriptor (base.setWidth 64) (limit.setWidth 64)
      (attr.setWidth 64) ∧
    (∃ s, SegDescriptor.ofBytes d.bytes = some s ∧ s.base = base ∧
      s.limit = limit ∧ s.attributes = attr &&& 0xF0FF#16) ∧
    seg2phys (gdt.set index d hindex) (selector index rpl) = some base := by
  refine ⟨init_descriptor_bytes base limit attr,
    ⟨_, ofBytes_init_descriptor base limit attr,
      SegDescriptor.base_pack base limit attr, ?_,
      SegDescriptor.attributes_pack base limit attr⟩,
    seg2phys_selector base limit attr hindex hrpl⟩
  rw [SegDescriptor.limit_pack]
  apply BitVec.eq_of_toNat_eq
  have hlt : limit.toNat < 2 ^ 20 := hlimit
  rw [BitVec.toNat_and]
  exact (Nat.and_two_pow_sub_one_eq_mod limit.toNat 20).trans
    (Nat.mod_eq_of_lt hlt)

/-- The video memory of the loader's table, as a fourth descriptor. -/
theorem descriptor_encodings_video :
    let d := init_descriptor 0xB8000 0xFFFF 0x00F2
    (0xFFFF : BitVec 32) < 2 ^ 20 ∧
    d.bytes = Descriptor ((0xB8000 : BitVec 32).setWidth 64)
      ((0xFFFF : BitVec 32).setWidth 64) ((0x00F2 : BitVec 16).setWidth 64) ∧
    (∃ s, SegDescriptor.ofBytes d.bytes = some s ∧ s.base = 0xB8000 ∧
      s.limit = 0xFFFF ∧ s.attributes = 0x00F2 &&& 0xF0FF#16) ∧
    seg2phys ((Vector.replicate GDT_SIZE d).set 3 d) (selector 3 3) =
      some 0xB8000 :=
  ⟨by decide, descriptor_encodings 0x00F2 (by decide)
    (Vector.replicate GDT_SIZE _) (by decide) (by decide)⟩

end LearningLinux.Protect
