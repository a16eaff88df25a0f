import LearningLinux.KernelPrivilege.Core

/-!
# `load_relocate_program`

The routine in its parts, one behind the other: memory for the LDT and the
image of the program, the four segments of the program, the relocation of its
SALT, the three stacks for the other levels, and the TSS.

The blocks of the stacks are the same text with other numbers, and with two
slips in the last one. Its mask `0000_0000_0000_0010` has no `B` behind it, so
the assembler reads ten, and it registers `ecx`, where the other two have
`eax`, the upper end of the stack. The size of a stack is shifted as a double
word in all of them, which two blocks leave to be guessed.
-/

namespace LearningLinux.KernelPrivilege

open LearningLinux.Lib LearningLinux.Lib.ByteMem

/-! ## The image -/

/-- The size of the program, in whole sectors. -/
def wholeSectors (eax : Nat) : Nat :=
  if eax % 512 = 0 then eax else (eax / 512 * 512 + 512) % 2 ^ 32

/-- `.b1`, with so many rounds left. -/
def readSectors (disk : Disk) : Nat → Nat → Nat → ByteMem → ByteMem
  | 0, _, _, m => m
  | k + 1, eax, ebx, m =>
      let r := read_hard_disk_0 disk eax ebx m
      readSectors disk k ((eax + 1) % 2 ^ 32) r.1 r.2

/-- A double word of the header, as the first sector has it. -/
def headerField (disk : Disk) (sector off : Nat) : Nat :=
  (⟨disk sector⟩ : ByteMem).load32 off

/-- Where the program has been loaded is returned in `edi`. -/
def loadImage (disk : Disk) (sector tcb : Nat) (s : Core) : Nat × Core :=
  let (ecx, s) := allocate_memory 160 s
  let m := s.mem.store32 (tcb + 0x0c) ecx
  let m := m.store16 (tcb + 0x0a) 0xffff
  let eax := wholeSectors (headerField disk sector 0)
  let (ecx, s) := allocate_memory eax { s with mem := m }
  let m := s.mem.store32 (tcb + 0x06) ecx
  let m := readSectors disk (rounds (eax / 512)) sector ecx m
  (m.load32 (tcb + 0x06), { s with mem := m })

/-! ## The segments of the program -/

/-- A descriptor for level 3, whose selector goes to these fields. -/
def userSegment (base limit : Nat) (attr : BitVec 32) (tcb : Nat)
    (fields : List Nat) (s : Core) : Core :=
  let d := make_seg_descriptor (BitVec.ofNat 32 base) (BitVec.ofNat 32 limit)
    attr
  let (cx, s) := fill_descriptor_in_ldt d tcb s
  { s with
    mem := fields.foldl (fun m field => m.store16 field (cx ||| 3)) s.mem }

/-- `dec ebx` -/
def dec32 (ebx : Nat) : Nat := (ebx + (2 ^ 32 - 1)) % 2 ^ 32

def headerSegment (edi tcb : Nat) (s : Core) : Core :=
  userSegment edi (dec32 (s.mem.load32 (edi + 0x04))) 0x0040f200 tcb
    [tcb + 0x44, edi + 0x04] s

def codeSegment (edi tcb : Nat) (s : Core) : Core :=
  userSegment ((edi + s.mem.load32 (edi + 0x14)) % 2 ^ 32)
    (dec32 (s.mem.load32 (edi + 0x18))) 0x0040f800 tcb [edi + 0x14] s

def dataSegment (edi tcb : Nat) (s : Core) : Core :=
  userSegment ((edi + s.mem.load32 (edi + 0x1c)) % 2 ^ 32)
    (dec32 (s.mem.load32 (edi + 0x20))) 0x0040f200 tcb [edi + 0x1c] s

def stackSegment (edi tcb : Nat) (s : Core) : Core :=
  let ecx := s.mem.load32 (edi + 0x0c)
  let ebx := (0x000fffff + (2 ^ 32 - ecx)) % 2 ^ 32
  let eax := 4096 * ecx % 2 ^ 32
  let (ecx, s) := allocate_memory eax s
  let eax := (eax + ecx) % 2 ^ 32
  userSegment eax ebx 0x00c0f600 tcb [edi + 0x08] s

/-! ## The SALT -/

/-- An entry of the SALT of the core: a name, the offset of the routine and
the selector of its gate. -/
structure SaltItem where
  name : Nat → UInt8
  offset : Nat
  selector : Nat

/-- `repe cmpsd`, with 64 in `ecx`. -/
def sameName (m : ByteMem) (edi : Nat) (item : SaltItem) : Bool :=
  (List.range 256).all fun i => m.byte (edi + i) = item.name i

/-- `.b3`: the entry at `edi` is compared with all of the core. -/
def relocateEntry (salt : List SaltItem) (edi : Nat) (m : ByteMem) : ByteMem :=
  salt.foldl (fun m item =>
    if sameName m edi item then
      (m.store32 edi item.offset).store16 (edi + 4) (item.selector ||| 3)
    else m) m

/-- `.b2`, with so many rounds left. -/
def relocate (salt : List SaltItem) : Nat → Nat → ByteMem → ByteMem
  | 0, _, m => m
  | k + 1, edi, m =>
      relocate salt k ((edi + 256) % 2 ^ 32) (relocateEntry salt edi m)

def relocateSalt (salt : List SaltItem) (edi : Nat) (s : Core) : Core :=
  { s with
    mem := relocate salt (rounds (s.mem.load32 (edi + 0x24)))
      ((edi + 0x28) % 2 ^ 32) s.mem }

/-! ## The stacks -/

/-- A stack whose fields in the TCB begin at `off`. What is registered as its
base is chosen from `eax` and `ecx`. -/
def createStack (off : Nat) (base : Nat → Nat → Nat) (attr : BitVec 32)
    (mask tcb : Nat) (s : Core) : Core :=
  let m := s.mem.store32 (tcb + off) 4096
  let m := m.store32 (tcb + off) (m.load32 (tcb + off) / 2 ^ 12)
  let (ecx, s) := allocate_memory 4096 { s with mem := m }
  let eax := (4096 + ecx) % 2 ^ 32
  let m := s.mem.store32 (tcb + off + 4) (base eax ecx)
  let d := make_seg_descriptor (BitVec.ofNat 32 eax) 0xffffe attr
  let (cx, s) := fill_descriptor_in_ldt d tcb { s with mem := m }
  let m := s.mem.store16 (tcb + off + 8) (cx ||| mask)
  { s with mem := m.store32 (tcb + off + 10) 0 }

/-- The `or` of the selector is a comment here. -/
def createStack0 : Nat → Core → Core :=
  createStack 0x1a (fun eax _ => eax) 0x00c09600 0

def createStack1 : Nat → Core → Core :=
  createStack 0x28 (fun eax _ => eax) 0x00c0b600 0000000000000001

/-- `or cx,0000_0000_0000_0010`, and `ecx` in place of `eax`. -/
def createStack2 : Nat → Core → Core :=
  createStack 0x36 (fun _ ecx => ecx) 0x00c0d600 0000000000000010

/-! ## The LDT and the TSS -/

/-- A word and a double word from one address to another. -/
def copy16 (m : ByteMem) (src dst : Nat) : ByteMem :=
  m.store16 dst (m.load16 src)

def copy32 (m : ByteMem) (src dst : Nat) : ByteMem :=
  m.store32 dst (m.load32 src)

def registerLdt (tcb : Nat) (s : Core) : Core :=
  let eax := s.mem.load32 (tcb + 0x0c)
  let ebx := s.mem.load16 (tcb + 0x0a)
  let d := make_seg_descriptor (BitVec.ofNat 32 eax) (BitVec.ofNat 32 ebx)
    0x00408200
  let (cx, s) := set_up_gdt_descriptor d s
  { s with mem := s.mem.store16 (tcb + 0x10) cx }

/-- What the TSS at `ecx` is filled with. -/
def fillTss (tcb ecx : Nat) (m : ByteMem) : ByteMem :=
  let m := m.store16 (ecx + 0) 0
  let m := copy32 m (tcb + 0x24) (ecx + 4)
  let m := copy16 m (tcb + 0x22) (ecx + 8)
  let m := copy32 m (tcb + 0x32) (ecx + 12)
  let m := copy16 m (tcb + 0x30) (ecx + 16)
  let m := copy32 m (tcb + 0x40) (ecx + 20)
  let m := copy16 m (tcb + 0x3e) (ecx + 24)
  let m := copy16 m (tcb + 0x10) (ecx + 96)
  let m := copy16 m (tcb + 0x12) (ecx + 102)
  m.store16 (ecx + 100) 0

def createTss (tcb : Nat) (s : Core) : Core :=
  let m := s.mem.store16 (tcb + 0x12) 104
  let m := m.store16 (tcb + 0x12) -- dec word
    ((m.load16 (tcb + 0x12) + (2 ^ 16 - 1)) % 2 ^ 16)
  let (ecx, s) := allocate_memory 104 { s with mem := m }
  { s with mem := fillTss tcb ecx (s.mem.store32 (tcb + 0x14) ecx) }

def registerTss (tcb : Nat) (s : Core) : Core :=
  let eax := s.mem.load32 (tcb + 0x14)
  let ebx := s.mem.load16 (tcb + 0x12)
  let d := make_seg_descriptor (BitVec.ofNat 32 eax) (BitVec.ofNat 32 ebx)
    0x00408900
  let (cx, s) := set_up_gdt_descriptor d s
  { s with mem := s.mem.store16 (tcb + 0x18) cx }

/-! ## The routine -/

def loadProgram (disk : Disk) (salt : List SaltItem) (sector tcb : Nat)
    (s : Core) : Core :=
  let (edi, s) := loadImage disk sector tcb s
  let s := headerSegment edi tcb s
  let s := codeSegment edi tcb s
  let s := dataSegment edi tcb s
  let s := stackSegment edi tcb s
  relocateSalt salt edi s

def load_relocate_program (disk : Disk) (salt : List SaltItem)
    (sector tcb : Nat) (s : Core) : Core :=
  let s := loadProgram disk salt sector tcb s
  let s := createStack0 tcb s
  let s := createStack1 tcb s
  let s := createStack2 tcb s
  let s := registerLdt tcb s
  let s := createTss tcb s
  registerTss tcb s

end LearningLinux.KernelPrivilege
