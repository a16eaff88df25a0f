import LearningLinux.Lib.ByteMem
import LearningLinux.Lib.Machine

/-!
# The real-mode part of `loader.asm`

From the search in the root directory to the end of the loading loop. The code
is modelled from label to label, a register that a block sets twice being two
values. `ds` and `ss` are `cs`, the segment of the loader, and the direction
flag is clear.

The interrupts of the BIOS are parameters, with `sp` for their own use of the
stack. They may change the memory, and a read may leave anything in `ax`. A call
pushes the address it returns to, and its `ret` must find that address again.
-/

namespace LearningLinux.Loader

open LearningLinux.Lib

/-! ## Constants -/

def BaseOfLoader : Nat := 0x9000
def BaseOfKernelFile : Nat := 0x8000
def OffsetOfKernelFile : Nat := 0
def BaseOfStack : Nat := 0x100

def RootDirSectors : Nat := 14
def SectorNoOfRootDirectory : Nat := 19
def SectorNoOfFAT1 : Nat := 1
def DeltaSectorNo : Nat := 17

inductive CallSite where
  | search
  | load
  | fat
  | fatSector
deriving DecidableEq, Repr

/-- Where the assembler puts the FAT12 header and the variables, and the
addresses of the instructions behind the calls. -/
structure Layout where
  header : Nat
  vars : Nat
  ip : CallSite → Nat
  header_pos : BaseOfStack ≤ header
  header_lt : header + 62 ≤ vars
  vars_lt : vars + 21 ≤ 0x10000
  ip_lt : ∀ site, ip site < 2 ^ 16

namespace Layout

variable (l : Layout)

def BPB_BytsPerSec : Nat := l.header + 8
def BPB_SecPerTrk : Nat := l.header + 21
def BS_DrvNum : Nat := l.header + 33

def wRootDirSizeForLoop : Nat := l.vars
def wSectorNo : Nat := l.vars + 2
def bOdd : Nat := l.vars + 4
def dwKernelSize : Nat := l.vars + 5
def KernelFileName : Nat := l.vars + 9

end Layout

/-! ## The processor -/

inductive Label where
  | MemChkOK
  | SEARCH_IN_ROOT_DIR_BEGIN
  | SEARCH_FOR_KERNELBIN
  | CMP_FILENAME
  | DIFFERENT
  | GOTO_NEXT_SECTOR_IN_ROOT_DIR
  | NO_KERNELBIN
  | FILENAME_FOUND
  | GOON_LOADING_FILE
  | FILE_LOADED
deriving DecidableEq, Repr

/-- `eaxh` is the upper half of `eax`. -/
structure Cpu where
  label : Label
  eaxh : Nat
  ax : Nat
  bx : Nat
  cx : Nat
  dx : Nat
  si : Nat
  di : Nat
  bp : Nat
  sp : Nat
  es : Nat
  mem : ByteMem

/-! Address arithmetic is not unfolded to compare two states. -/

@[irreducible]
def phys (seg off : Nat) : Nat := seg * 16 + off % 2 ^ 16

/-- An address in the segment of the loader. -/
def ds (off : Nat) : Nat := phys BaseOfLoader off

@[irreducible]
def add16 (a b : Nat) : Nat := (a + b) % 2 ^ 16

@[irreducible]
def sub16 (a b : Nat) : Nat := (a + (2 ^ 16 - b)) % 2 ^ 16

@[irreducible]
def low (r : Nat) : Nat := r % 2 ^ 8

@[irreducible]
def high (r : Nat) : Nat := r / 2 ^ 8 % 2 ^ 8

@[irreducible]
def bytes (hi lo : Nat) : Nat := hi * 2 ^ 8 + lo

def Cpu.push (c : Cpu) (w : Nat) : Cpu :=
  { c with
    sp := sub16 c.sp 2
    mem := c.mem.store16 (ds (sub16 c.sp 2)) w }

/-- The word on top of the stack. -/
def Cpu.top (c : Cpu) : Nat := c.mem.load16 (ds c.sp)

def Cpu.drop (c : Cpu) : Cpu := { c with sp := add16 c.sp 2 }

def Cpu.call (c : Cpu) (ip : Nat) (f : Cpu → Option Cpu) : Option Cpu :=
  (f (c.push ip)).bind fun d => if d.top = ip then some d.drop else none

/-! ## The BIOS -/

/-- A call of `int 13h` with `ah = 2`; `buffer` is the address `es:bx`. -/
structure ReadCall where
  al : Nat
  ch : Nat
  cl : Nat
  dh : Nat
  dl : Nat
  buffer : Nat
  sp : Nat

/-- `int 10h` puts a dot on the screen, and `int 13h` resets the drive or reads
from it. A read is repeated until the carry flag is clear, and has no result if
it never is. The screen and what the BIOS keeps for itself are not in the
memory here. -/
structure Bios where
  int10 : (sp : Nat) → ByteMem → ByteMem
  reset : (sp : Nat) → ByteMem → ByteMem
  read : ReadCall → ByteMem → Option (Nat × ByteMem)

/-! ## Subroutines -/

/-- `ReadSector`, with the stack frame for the number of sectors. -/
def readSector (l : Layout) (bios : Bios) (c : Cpu) : Option Cpu :=
  let bp := sub16 c.sp 2
  let m := c.mem.store16 (ds bp) c.bp -- push bp
  let sp := sub16 bp 2
  let m := m.store8 (ds (sub16 bp 2)) (low c.cx) -- mov byte [bp-2], cl
  let sp := sub16 sp 2
  let m := m.store16 (ds sp) c.bx -- push bx
  let bl := m.load8 (ds l.BPB_SecPerTrk)
  if bl = 0 ∨ 2 ^ 8 ≤ c.ax / bl then none -- div bl
  else
    let y := c.ax / bl
    let cl := low (c.ax % bl + 1)
    let dh := y % 2
    let ch := y / 2
    let bx := m.load16 (ds sp) -- pop bx
    let sp := add16 sp 2
    let dl := m.load8 (ds l.BS_DrvNum)
    let al := m.load8 (ds (sub16 bp 2)) -- mov al, byte [bp-2]
    (bios.read ⟨al, ch, cl, dh, dl, phys c.es bx, sp⟩ m).map fun (ax, m) =>
      let sp := add16 sp 2
      { c with
        ax := ax
        bx := bx
        cx := bytes ch cl
        dx := bytes dh dl
        bp := m.load16 (ds sp) -- pop bp
        sp := add16 sp 2
        mem := m }

/-- The part of `GetFATEntry` before its call. -/
def fatRequest (l : Layout) (c : Cpu) : Option Cpu :=
  let c := (c.push c.es).push c.bx
  let es := BaseOfKernelFile - 0x100
  let ax := (c.push c.ax).top -- push ax, pop ax
  let m := (c.push c.ax).mem
  let product := ax * 3 -- mul bx
  if 2 ^ 16 ≤ product / 2 then none -- div bx
  else
    let ax := product / 2
    let m := m.store8 (ds l.bOdd) (if product % 2 = 0 then 0 else 1)
    let bx := m.load16 (ds l.BPB_BytsPerSec)
    if bx = 0 then none
    else
      let c : Cpu := { c with
        ax := add16 (ax / bx) SectorNoOfFAT1
        bx := 0
        cx := bytes (high c.cx) 2
        dx := ax % bx
        es := es
        mem := m }
      some (c.push (ax % bx)) -- push dx

/-- The part of it behind. -/
def fatAnswer (l : Layout) (c : Cpu) : Cpu :=
  let dx := c.top
  let c := c.drop -- pop dx
  let bx := add16 c.bx dx
  let ax := c.mem.load16 (phys c.es bx)
  let ax := if c.mem.load8 (ds l.bOdd) = 1 then ax / 2 ^ 4 else ax
  let bx := c.top
  let c := c.drop -- pop bx
  let es := c.top
  { c.drop with -- pop es
    ax := ax % 0x1000
    bx := bx
    dx := dx
    es := es }

def getFATEntry (l : Layout) (bios : Bios) (c : Cpu) : Option Cpu :=
  ((fatRequest l c).bind fun c =>
    c.call (l.ip .fatSector) (readSector l bios)).map (fatAnswer l)

/-! ## The code from label to label -/

def Cpu.goto (c : Cpu) (label : Label) : Cpu := { c with label := label }

/-- `LABEL_FILENAME_FOUND`, with `di` on the entry. -/
def found (l : Layout) (c : Cpu) : Cpu :=
  let di := c.di / 2 ^ 4 * 2 ^ 4 -- and di, 0FFF0h
  let m := c.mem.store32 (ds (sub16 c.sp 4)) -- push eax
    (c.eaxh * 2 ^ 16 + RootDirSectors)
  let m := m.store32 (ds l.dwKernelSize)
    (m.load32 (phys c.es (add16 di 0x1c)))
  let eax := m.load32 (ds (sub16 c.sp 4)) -- pop eax
  let di := add16 di 0x1a
  let cluster := m.load16 (phys c.es di)
  let cx := add16 (add16 cluster (eax % 2 ^ 16)) DeltaSectorNo
  { c with
    label := .GOON_LOADING_FILE
    eaxh := eax / 2 ^ 16
    ax := cx
    bx := OffsetOfKernelFile
    cx := cx
    di := di
    sp := sub16 c.sp 2 -- push cx
    es := BaseOfKernelFile
    mem := m.store16 (ds (sub16 c.sp 2)) cluster }

/-- What `LABEL_GOON_LOADING_FILE` does before its first call: `int 10h`
between two pushes and pops. -/
def loadRequest (int10 : Nat → ByteMem → ByteMem) (c : Cpu) : Cpu :=
  let c₁ := (c.push c.ax).push c.bx
  let c₁ := { c₁ with mem := int10 c₁.sp c₁.mem }
  { c with
    ax := c₁.drop.top
    bx := c₁.top
    cx := bytes (high c.cx) 1
    mem := c₁.mem }

/-- And behind its second, with the entry in `ax`. -/
def loadNext (l : Layout) (c : Cpu) : Cpu :=
  if c.ax = 0xfff then c.goto .FILE_LOADED
  else
    let c := c.push c.ax
    { c with
      label := .GOON_LOADING_FILE
      ax := add16 (add16 c.ax RootDirSectors) DeltaSectorNo
      bx := add16 c.bx (c.mem.load16 (ds l.BPB_BytsPerSec))
      dx := RootDirSectors }

def Cpu.step (l : Layout) (bios : Bios) (c : Cpu) : Option Cpu :=
  match c.label with
  | .MemChkOK =>
      let m := c.mem.store16 (ds l.wSectorNo) SectorNoOfRootDirectory
      some { c with
        label := .SEARCH_IN_ROOT_DIR_BEGIN
        ax := low c.ax
        dx := bytes (high c.dx) 0
        mem := bios.reset c.sp m }
  | .SEARCH_IN_ROOT_DIR_BEGIN =>
      let size := c.mem.load16 (ds l.wRootDirSizeForLoop)
      if size = 0 then some (c.goto .NO_KERNELBIN)
      else
        let m := c.mem.store16 (ds l.wRootDirSizeForLoop) (size - 1)
        let c : Cpu := { c with
          ax := m.load16 (ds l.wSectorNo)
          bx := OffsetOfKernelFile
          cx := bytes (high c.cx) 1
          es := BaseOfKernelFile
          mem := m }
        (c.call (l.ip .search) (readSector l bios)).map fun c =>
          { c with
            label := .SEARCH_FOR_KERNELBIN
            dx := 0x10
            si := l.KernelFileName
            di := OffsetOfKernelFile }
  | .SEARCH_FOR_KERNELBIN =>
      if c.dx = 0 then some (c.goto .GOTO_NEXT_SECTOR_IN_ROOT_DIR)
      else
        some { c with
          label := .CMP_FILENAME
          cx := 11
          dx := c.dx - 1 }
  | .CMP_FILENAME =>
      if c.cx = 0 then some (c.goto .FILENAME_FOUND)
      else
        let al := c.mem.load8 (ds c.si) -- lodsb
        let c : Cpu := { c with
          ax := bytes (high c.ax) al
          cx := c.cx - 1
          si := add16 c.si 1 }
        if al = c.mem.load8 (phys c.es c.di) then
          some { c with di := add16 c.di 1 }
        else some (c.goto .DIFFERENT)
  | .DIFFERENT =>
      some { c with
        label := .SEARCH_FOR_KERNELBIN
        si := l.KernelFileName
        di := add16 (c.di / 2 ^ 5 * 2 ^ 5) 0x20 } -- and di, 0FFE0h
  | .GOTO_NEXT_SECTOR_IN_ROOT_DIR =>
      some { c with
        label := .SEARCH_IN_ROOT_DIR_BEGIN
        mem := c.mem.store16 (ds l.wSectorNo)
          (add16 (c.mem.load16 (ds l.wSectorNo)) 1) }
  | .NO_KERNELBIN => none
  | .FILENAME_FOUND => some (found l c)
  | .GOON_LOADING_FILE =>
      let c := loadRequest bios.int10 c
      (c.call (l.ip .load) (readSector l bios)).bind fun c =>
        let c : Cpu := { c.drop with ax := c.top } -- pop ax
        (c.call (l.ip .fat) (getFATEntry l bios)).map (loadNext l)
  | .FILE_LOADED => none

end LearningLinux.Loader
