import LearningLinux.Boot.Loader

/-!
# The subroutines of the loader

Each has one lemma that says what it reads, what it returns and where it
writes. The stack is below everything else that the loader has in its segment,
so the only addresses that need an argument are those of the return addresses
and of the saved registers. An interrupt spoils what is below `sp`, and nothing
is kept there.
-/

namespace LearningLinux.Loader

open LearningLinux.Lib LearningLinux.Lib.ByteMem

variable {l : Layout} {bios : Bios} {image : Image} {c d : Cpu}

/-! ## Addresses -/

/-- The stack ends below the header, and that below the variables. -/
theorem Layout.bounds (l : Layout) : 0x100 ≤ l.header ∧
    l.header + 62 ≤ l.vars ∧ l.vars + 21 ≤ 0x10000 :=
  ⟨l.header_pos, l.header_lt, l.vars_lt⟩

theorem ds_eq {off : Nat} (h : off < 2 ^ 16) : ds off = 0x90000 + off := by
  rw [ds, phys, BaseOfLoader]
  omega

theorem sub16_eq {a b : Nat} (hle : b ≤ a) (hlt : a < 2 ^ 16) :
    sub16 a b = a - b := by
  rw [sub16]
  omega

theorem add16_eq {a b : Nat} (h : a + b < 2 ^ 16) : add16 a b = a + b := by
  rw [add16, Nat.mod_eq_of_lt h]

/-- A pop, some way below the top. -/
theorem add16_sub {a b d : Nat} (hd : d = b + 2) (hle : d ≤ a)
    (hlt : a < 2 ^ 16) : add16 (a - d) 2 = a - b := by
  rw [add16]
  omega

/-- The stack between two values of `sp`. -/
def Stack (lo hi b : Nat) : Prop := 0x90000 + lo ≤ b ∧ b < 0x90000 + hi

/-- What the code reads and nothing writes. -/
def kernelName : List UInt8 :=
  [0x4b, 0x45, 0x52, 0x4e, 0x45, 0x4c, 0x20, 0x20, 0x42, 0x49, 0x4e]

structure Consts (l : Layout) (m : ByteMem) : Prop where
  bytsPerSec : m.load16 (ds l.BPB_BytsPerSec) = 512
  secPerTrk : m.load8 (ds l.BPB_SecPerTrk) = 18
  drvNum : m.load8 (ds l.BS_DrvNum) = 0
  name : m.Holds (ds l.KernelFileName) kernelName

/-! ## The drive -/

/-- The bytes of the disk image. -/
abbrev Image : Type := Nat → UInt8

/-- A buffer for `count` sectors below the segment of the loader, which does not
cross a boundary of 64 KB. -/
def FitsDma (buffer count : Nat) : Prop :=
  1 ≤ count ∧ buffer % 2 ^ 16 + count * 512 ≤ 2 ^ 16 ∧
    buffer + count * 512 ≤ 0x90000

instance (buffer count : Nat) : Decidable (FitsDma buffer count) :=
  inferInstanceAs (Decidable (_ ∧ _))

/-- The sectors are on one track of a drive with 80 cylinders, two heads and 18
sectors a track, counted from 1. -/
def ReadCall.Legal (r : ReadCall) : Prop :=
  r.dl = 0 ∧ r.ch < 80 ∧ r.dh < 2 ∧ 1 ≤ r.cl ∧ r.cl + r.al ≤ 19 ∧
    FitsDma r.buffer r.al

instance (r : ReadCall) : Decidable r.Legal :=
  inferInstanceAs (Decidable (_ ∧ _))

/-- The number of the first sector. -/
def ReadCall.sector (r : ReadCall) : Nat := (r.ch * 2 + r.dh) * 18 + (r.cl - 1)

/-- `int 13h` reads the sectors of the disk that it is asked for. Besides them
the interrupts write below `sp` only. -/
structure Bios.Serves (bios : Bios) (image : Image) : Prop where
  int10 : ∀ sp m, Outside (Stack 0 sp) m (bios.int10 sp m)
  reset : ∀ sp m, Outside (Stack 0 sp) m (bios.reset sp m)
  read : ∀ (r : ReadCall) m, r.Legal → ∃ ax m', bios.read r m = some (ax, m') ∧
    (∀ i < r.al * 512, m'.byte (r.buffer + i) = image (r.sector * 512 + i)) ∧
      Outside (fun b => (r.buffer ≤ b ∧ b < r.buffer + r.al * 512) ∨
        Stack 0 r.sp b) m m'

/-! ## `ReadSector` -/

/-- From `c` to `d` sectors have been read to `es:bx`. -/
structure SectorsRead (image : Image) (sector count : Nat) (c d : Cpu) :
    Prop where
  label : d.label = c.label
  eaxh : d.eaxh = c.eaxh
  bx : d.bx = c.bx
  si : d.si = c.si
  di : d.di = c.di
  sp : d.sp = c.sp
  es : d.es = c.es
  data : ∀ i < count * 512,
    d.mem.byte (c.es * 16 + c.bx + i) = image (sector * 512 + i)
  outside : Outside (fun b =>
    (c.es * 16 + c.bx ≤ b ∧ b < c.es * 16 + c.bx + count * 512) ∨
      Stack 0 c.sp b) c.mem d.mem

/-- The sector number is taken apart and put together again. -/
theorem Bios.Serves.read_sector (hbios : bios.Serves image)
    {sector count buffer : Nat} (hsector : sector < 2880)
    (hcount : sector % 18 + count ≤ 18) (hbuffer : FitsDma buffer count)
    (sp : Nat) (m : ByteMem) :
    ∃ ax m', bios.read ⟨count, sector / 18 / 2, low (sector % 18 + 1),
        sector / 18 % 2, 0, buffer, sp⟩ m = some (ax, m') ∧
      (∀ i < count * 512, m'.byte (buffer + i) = image (sector * 512 + i)) ∧
      Outside (fun b => (buffer ≤ b ∧ b < buffer + count * 512) ∨ Stack 0 sp b)
        m m' := by
  have hcl : low (sector % 18 + 1) = sector % 18 + 1 := by
    rw [low]
    omega
  have hchs : (sector / 18 / 2 * 2 + sector / 18 % 2) * 18 +
      (sector % 18 + 1 - 1) = sector := by omega
  have hread := hbios.read ⟨count, sector / 18 / 2, sector % 18 + 1,
    sector / 18 % 2, 0, buffer, sp⟩ m
      ⟨rfl, by dsimp only; omega, by dsimp only; omega, Nat.succ_pos _,
        by dsimp only; omega, hbuffer⟩
  rw [ReadCall.sector, hchs] at hread
  rw [hcl]
  exact hread

/-- The memory with the stack frame of `ReadSector`. -/
def readFrame (c : Cpu) : ByteMem :=
  ((c.mem.store16 (0x90000 + (c.sp - 2)) c.bp).store8 (0x90000 + (c.sp - 4))
    (low c.cx)).store16 (0x90000 + (c.sp - 6)) c.bx

theorem outside_readFrame (hlo : 6 ≤ c.sp) :
    Outside (Stack (c.sp - 6) c.sp) c.mem (readFrame c) := by
  refine Outside.trans (Outside.trans (outside_store16 ?_ _ _)
    (outside_store8 ?_ _ _)) (outside_store16 ?_ _ _)
  · intro b hle hlt
    rw [Stack]
    omega
  · rw [Stack]
    omega
  · intro b hle hlt
    rw [Stack]
    omega

theorem readFrame_count (hlo : 6 ≤ c.sp) :
    (readFrame c).load8 (0x90000 + (c.sp - 4)) = low c.cx := by
  rw [readFrame, load8_congr (store16_apart (by omega)), load8_store8_same,
    low, Nat.mod_mod]

theorem readFrame_bx (hbx : c.bx < 2 ^ 16) :
    (readFrame c).load16 (0x90000 + (c.sp - 6)) = c.bx := by
  rw [readFrame, load16_store16_same, Nat.mod_eq_of_lt hbx]

theorem readSector_spec (hbios : bios.Serves image) {count : Nat}
    (hcount : low c.cx = count)
    (hsecPerTrk : c.mem.load8 (ds l.BPB_SecPerTrk) = 18)
    (hdrvNum : c.mem.load8 (ds l.BS_DrvNum) = 0)
    (hlo : 6 ≤ c.sp) (hhi : c.sp ≤ 0x100) (hbx : c.bx < 2 ^ 16)
    (hbuffer : FitsDma (c.es * 16 + c.bx) count)
    (hsector : c.ax < 2880) (htrack : c.ax % 18 + count ≤ 18) :
    ∃ d, readSector l bios c = some d ∧ SectorsRead image c.ax count c d := by
  have hlayout := l.bounds
  have h₂ : sub16 c.sp 2 = c.sp - 2 := sub16_eq (by omega) (by omega)
  have h₄ : sub16 (c.sp - 2) 2 = c.sp - 4 := sub16_eq (by omega) (by omega)
  have h₆ : sub16 (c.sp - 4) 2 = c.sp - 6 := sub16_eq (by omega) (by omega)
  have hup₄ : add16 (c.sp - 6) 2 = c.sp - 4 :=
    add16_sub rfl (by omega) (by omega)
  have hup₂ : add16 (c.sp - 4) 2 = c.sp - 2 :=
    add16_sub rfl (by omega) (by omega)
  have hup₀ : add16 (c.sp - 2) 2 = c.sp := add16_sub rfl (by omega) (by omega)
  have hds₂ : ds (c.sp - 2) = 0x90000 + (c.sp - 2) := ds_eq (by omega)
  have hds₄ : ds (c.sp - 4) = 0x90000 + (c.sp - 4) := ds_eq (by omega)
  have hds₆ : ds (c.sp - 6) = 0x90000 + (c.sp - 6) := ds_eq (by omega)
  have hout := outside_readFrame hlo
  have htrk : (readFrame c).load8 (ds l.BPB_SecPerTrk) = 18 := by
    rw [hout.load8, hsecPerTrk]
    rw [Layout.BPB_SecPerTrk, ds_eq (by omega), Stack]
    omega
  have hdrv : (readFrame c).load8 (ds l.BS_DrvNum) = 0 := by
    rw [hout.load8, hdrvNum]
    rw [Layout.BS_DrvNum, ds_eq (by omega), Stack]
    omega
  have hphys : phys c.es c.bx = c.es * 16 + c.bx := by
    rw [phys, Nat.mod_eq_of_lt hbx]
  obtain ⟨ax, m, hread, hdata, hdisk⟩ := hbios.read_sector hsector htrack hbuffer
    (c.sp - 4) (readFrame c)
  have hdiv : ¬ (18 = 0 ∨ 2 ^ 8 ≤ c.ax / 18) := by omega
  rw [readSector]
  simp only [h₂, h₄, h₆, hup₄, hup₂, hup₀, hds₂, hds₄, hds₆]
  rw [show ((c.mem.store16 (0x90000 + (c.sp - 2)) c.bp).store8
      (0x90000 + (c.sp - 4)) (low c.cx)).store16 (0x90000 + (c.sp - 6)) c.bx =
        readFrame c from rfl]
  rw [htrk, if_neg hdiv, hdrv, readFrame_count hlo, readFrame_bx hbx, hphys,
    hcount, hread]
  dsimp only [Option.map_some]
  refine ⟨_, rfl, rfl, rfl, rfl, rfl, rfl, rfl, rfl, hdata, ?_⟩
  refine Outside.trans (hout.mono fun b hb => Or.inr ?_)
    (hdisk.mono fun b hb => hb.imp_right fun hb => ?_)
  all_goals
    rw [Stack] at hb ⊢
    omega

/-! ## Calls -/

/-- Registers that a push does not change. -/
structure SameRegs (c d : Cpu) : Prop where
  label : d.label = c.label
  eaxh : d.eaxh = c.eaxh
  ax : d.ax = c.ax
  bx : d.bx = c.bx
  cx : d.cx = c.cx
  si : d.si = c.si
  di : d.di = c.di
  es : d.es = c.es

theorem sameRegs_push (c : Cpu) (w : Nat) : SameRegs c (c.push w) := by
  rw [Cpu.push]
  exact ⟨rfl, rfl, rfl, rfl, rfl, rfl, rfl, rfl⟩

theorem push_sp (hlo : 2 ≤ c.sp) (hhi : c.sp < 2 ^ 16) (w : Nat) :
    (c.push w).sp = c.sp - 2 := by
  rw [Cpu.push, sub16_eq hlo hhi]

theorem push_mem (hlo : 2 ≤ c.sp) (hhi : c.sp < 2 ^ 16) (w : Nat) :
    (c.push w).mem = c.mem.store16 (0x90000 + (c.sp - 2)) w := by
  rw [Cpu.push, sub16_eq hlo hhi, ds_eq (by omega)]

theorem top_eq (hhi : c.sp < 2 ^ 16) :
    c.top = c.mem.load16 (0x90000 + c.sp) := by
  rw [Cpu.top, ds_eq hhi]

theorem top_push {w : Nat} (hw : w < 2 ^ 16) : (c.push w).top = w := by
  rw [Cpu.top, Cpu.push]
  dsimp only
  rw [load16_store16_same, Nat.mod_eq_of_lt hw]

theorem outside_push (hlo : 2 ≤ c.sp) (hhi : c.sp < 2 ^ 16) (w : Nat) :
    Outside (Stack (c.sp - 2) c.sp) c.mem (c.push w).mem := by
  rw [push_mem hlo hhi]
  refine outside_store16 ?_ _ _
  intro b hle hlt
  rw [Stack]
  omega

/-- A subroutine that leaves the stack pointer where it was, and its return
address alone, returns. -/
theorem call_eq {ip : Nat} {f : Cpu → Option Cpu} {P : Nat → Prop}
    (hip : ip < 2 ^ 16) (hlo : 2 ≤ c.sp) (hhi : c.sp < 2 ^ 16)
    (hf : f (c.push ip) = some d) (hsp : d.sp = c.sp - 2)
    (hout : Outside P (c.push ip).mem d.mem) (hP : ¬ P (0x90000 + (c.sp - 2)))
    (hP' : ¬ P (0x90000 + (c.sp - 2) + 1)) :
    c.call ip f = some { d with sp := c.sp } := by
  have htop : d.top = ip := by
    have hold : (c.push ip).top = ip := top_push hip
    rw [top_eq (by rw [push_sp hlo hhi]; omega), push_sp hlo hhi] at hold
    rw [top_eq (by omega), hsp, hout.load16 hP hP', hold]
  have hdrop : d.drop = { d with sp := c.sp } := by
    rw [Cpu.drop, hsp, add16_eq (by omega), Nat.sub_add_cancel hlo]
  rw [Cpu.call, hf, Option.bind_some, if_pos htop, hdrop]

/-- A call of a subroutine that reads sectors to a buffer below the segment of
the loader. -/
theorem call_sectors {read : Cpu → Option Cpu} {sector count : Nat}
    (site : CallSite) (hlo : 8 ≤ c.sp) (hhi : c.sp ≤ 0x100)
    (hend : c.es * 16 + c.bx + count * 512 ≤ 0x90000)
    (hread : ∃ d, read (c.push (l.ip site)) = some d ∧
      SectorsRead image sector count (c.push (l.ip site)) d) :
    ∃ d, c.call (l.ip site) read = some d ∧
      SectorsRead image sector count c d := by
  have hsp := push_sp (c := c) (by omega) (by omega) (l.ip site)
  have hpush := outside_push (c := c) (by omega) (by omega) (l.ip site)
  have hregs := sameRegs_push c (l.ip site)
  have hcall (d : Cpu) (P : Nat → Prop) := call_eq (c := c) (d := d) (P := P)
    (f := read) (l.ip_lt site) (by omega) (by omega)
  generalize c.push (l.ip site) = p at hsp hpush hregs hcall hread
  obtain ⟨d, hd, hread⟩ := hread
  have hdata := hread.data
  have hout := hread.outside
  rw [hregs.es, hregs.bx] at hdata
  rw [hregs.es, hregs.bx, hsp] at hout
  have hnot (i : Nat) : ¬ ((c.es * 16 + c.bx ≤ 0x90000 + (c.sp - 2) + i ∧
      0x90000 + (c.sp - 2) + i < c.es * 16 + c.bx + count * 512) ∨
        Stack 0 (c.sp - 2) (0x90000 + (c.sp - 2) + i)) := by
    rw [Stack]
    omega
  refine ⟨_, hcall d _ hd (hread.sp.trans hsp) hout (hnot 0) (hnot 1),
    hread.label.trans hregs.label, hread.eaxh.trans hregs.eaxh,
    hread.bx.trans hregs.bx, hread.si.trans hregs.si, hread.di.trans hregs.di,
    rfl, hread.es.trans hregs.es, hdata, ?_⟩
  refine Outside.trans (hpush.mono fun b hb => Or.inr ?_)
    (hout.mono fun b hb => ?_)
  · rw [Stack] at hb ⊢
    omega
  · rcases hb with hbuf | hstack
    · exact Or.inl hbuf
    · right
      rw [Stack] at hstack ⊢
      omega

/-- The header is not on the stack. -/
theorem header_push (ip : Nat) (hlo : 2 ≤ c.sp) (hhi : c.sp ≤ 0x100)
    (hsecPerTrk : c.mem.load8 (ds l.BPB_SecPerTrk) = 18)
    (hdrvNum : c.mem.load8 (ds l.BS_DrvNum) = 0) :
    (c.push ip).mem.load8 (ds l.BPB_SecPerTrk) = 18 ∧
      (c.push ip).mem.load8 (ds l.BS_DrvNum) = 0 := by
  have hlayout := l.bounds
  have hpush := outside_push (c := c) hlo (by omega) ip
  constructor
  · rw [hpush.load8, hsecPerTrk]
    rw [Layout.BPB_SecPerTrk, ds_eq (by omega), Stack]
    omega
  · rw [hpush.load8, hdrvNum]
    rw [Layout.BS_DrvNum, ds_eq (by omega), Stack]
    omega

theorem call_readSector (hbios : bios.Serves image) {count : Nat}
    (site : CallSite)
    (hcount : low c.cx = count)
    (hsecPerTrk : c.mem.load8 (ds l.BPB_SecPerTrk) = 18)
    (hdrvNum : c.mem.load8 (ds l.BS_DrvNum) = 0)
    (hlo : 8 ≤ c.sp) (hhi : c.sp ≤ 0x100) (hbx : c.bx < 2 ^ 16)
    (hbuffer : FitsDma (c.es * 16 + c.bx) count)
    (hsector : c.ax < 2880) (htrack : c.ax % 18 + count ≤ 18) :
    ∃ d, c.call (l.ip site) (readSector l bios) = some d ∧
      SectorsRead image c.ax count c d := by
  have hsp := push_sp (c := c) (by omega) (by omega) (l.ip site)
  have hregs := sameRegs_push c (l.ip site)
  obtain ⟨htrk, hdrv⟩ := header_push (l.ip site) (by omega) hhi
    hsecPerTrk hdrvNum
  refine call_sectors site hlo hhi hbuffer.2.2 ?_
  rw [← hregs.ax]
  exact readSector_spec hbios (hregs.cx.symm ▸ hcount) htrk hdrv (by omega)
    (by omega) (hregs.bx.symm ▸ hbx) (hregs.es.symm ▸ hregs.bx.symm ▸ hbuffer)
    (hregs.ax.symm ▸ hsector) (hregs.ax.symm ▸ htrack)

/-! ## `GetFATEntry` -/

/-- Entry number `cluster` of the FAT, three bytes being two entries. -/
def fatEntry (image : Image) (cluster : Nat) : Nat :=
  let start := SectorNoOfFAT1 * 512 + cluster * 3 / 2
  let word := (image start).toNat + 2 ^ 8 * (image (start + 1)).toNat
  if cluster % 2 = 0 then word % 0x1000 else word / 2 ^ 4

theorem low_bytes {hi lo : Nat} (h : lo < 2 ^ 8) : low (bytes hi lo) = lo := by
  rw [low, bytes]
  omega

/-- The memory that `GetFATEntry` makes its call with. -/
def fatFrame (l : Layout) (c : Cpu) : ByteMem :=
  ((((c.mem.store16 (0x90000 + (c.sp - 2)) c.es).store16 (0x90000 + (c.sp - 4))
    c.bx).store16 (0x90000 + (c.sp - 6)) c.ax).store8 (0x90000 + l.bOdd)
      (if c.ax * 3 % 2 = 0 then 0 else 1)).store16 (0x90000 + (c.sp - 6))
        (c.ax * 3 / 2 % 512)

/-- The state that it makes the call in. -/
def fatCall (l : Layout) (c : Cpu) : Cpu :=
  { c with
    ax := c.ax * 3 / 2 / 512 + 1
    bx := 0
    cx := bytes (high c.cx) 2
    dx := c.ax * 3 / 2 % 512
    sp := c.sp - 6
    es := 0x7f00
    mem := fatFrame l c }

/-- The area for the FAT, two sectors of it. -/
def Scratch (b : Nat) : Prop := 0x7f000 ≤ b ∧ b < 0x7f400

structure FatRead (l : Layout) (image : Image) (c d : Cpu) : Prop where
  ax : d.ax = fatEntry image c.ax
  label : d.label = c.label
  eaxh : d.eaxh = c.eaxh
  bx : d.bx = c.bx
  si : d.si = c.si
  di : d.di = c.di
  sp : d.sp = c.sp
  es : d.es = c.es
  outside : Outside (fun b => Scratch b ∨ b = 0x90000 + l.bOdd ∨
    Stack 0 c.sp b) c.mem d.mem

section FatFrame

variable (hlo : 6 ≤ c.sp) (hhi : c.sp ≤ 0x100)

include hlo in
theorem outside_fatFrame : Outside (fun b => b = 0x90000 + l.bOdd ∨
    Stack (c.sp - 6) c.sp b) c.mem (fatFrame l c) := by
  refine Outside.trans (Outside.trans (Outside.trans (Outside.trans
    (outside_store16 ?_ _ _) (outside_store16 ?_ _ _))
      (outside_store16 ?_ _ _)) (outside_store8 (Or.inl rfl) _ _))
        (outside_store16 ?_ _ _)
  all_goals
    intro b hle hlt
    rw [Stack]
    omega

theorem bOdd_ge (l : Layout) : 0x100 ≤ l.bOdd ∧ l.bOdd < 2 ^ 16 := by
  have hlayout := l.bounds
  rw [Layout.bOdd]
  omega

include hlo hhi

theorem fatFrame_es (hes : c.es < 2 ^ 16) :
    (fatFrame l c).load16 (0x90000 + (c.sp - 2)) = c.es := by
  have hodd := bOdd_ge l
  rw [fatFrame, load16_congr (store16_apart (by omega))
    (store16_apart (by omega)), load16_congr (store8_apart (by omega))
    (store8_apart (by omega)), load16_congr (store16_apart (by omega))
    (store16_apart (by omega)), load16_congr (store16_apart (by omega))
    (store16_apart (by omega)), load16_store16_same, Nat.mod_eq_of_lt hes]

theorem fatFrame_bx (hbx : c.bx < 2 ^ 16) :
    (fatFrame l c).load16 (0x90000 + (c.sp - 4)) = c.bx := by
  have hodd := bOdd_ge l
  rw [fatFrame, load16_congr (store16_apart (by omega))
    (store16_apart (by omega)), load16_congr (store8_apart (by omega))
    (store8_apart (by omega)), load16_congr (store16_apart (by omega))
    (store16_apart (by omega)), load16_store16_same, Nat.mod_eq_of_lt hbx]

omit hlo hhi in
theorem fatFrame_dx : (fatFrame l c).load16 (0x90000 + (c.sp - 6)) =
    c.ax * 3 / 2 % 512 := by
  rw [fatFrame, load16_store16_same]
  omega

omit hlo in
theorem fatFrame_bOdd : (fatFrame l c).load8 (0x90000 + l.bOdd) =
    if c.ax * 3 % 2 = 0 then 0 else 1 := by
  have hodd := bOdd_ge l
  rw [fatFrame, load8_congr (store16_apart (by omega)), load8_store8_same]
  split <;> rfl

theorem fatRequest_eq (hconst : c.mem.load16 (ds l.BPB_BytsPerSec) = 512)
    (hax : c.ax * 3 / 2 < 2 ^ 16) :
    fatRequest l c = some (fatCall l c) := by
  have hlayout := l.bounds
  have hodd := bOdd_ge l
  have h₂ : sub16 c.sp 2 = c.sp - 2 := sub16_eq (by omega) (by omega)
  have h₄ : sub16 (c.sp - 2) 2 = c.sp - 4 := sub16_eq (by omega) (by omega)
  have h₆ : sub16 (c.sp - 4) 2 = c.sp - 6 := sub16_eq (by omega) (by omega)
  have hds₂ : ds (c.sp - 2) = 0x90000 + (c.sp - 2) := ds_eq (by omega)
  have hds₄ : ds (c.sp - 4) = 0x90000 + (c.sp - 4) := ds_eq (by omega)
  have hds₆ : ds (c.sp - 6) = 0x90000 + (c.sp - 6) := ds_eq (by omega)
  have hdsOdd : ds l.bOdd = 0x90000 + l.bOdd := ds_eq hodd.2
  have hax₁₆ : c.ax % 2 ^ 16 = c.ax := Nat.mod_eq_of_lt (by omega)
  have hquotient : ¬ 2 ^ 16 ≤ c.ax * 3 / 2 := by omega
  have hsector : add16 (c.ax * 3 / 2 / 512) SectorNoOfFAT1 =
      c.ax * 3 / 2 / 512 + 1 := by
    rw [SectorNoOfFAT1, add16_eq (by omega)]
  have hsize (v : Nat) : ((((c.mem.store16 (0x90000 + (c.sp - 2))
      c.es).store16 (0x90000 + (c.sp - 4)) c.bx).store16
        (0x90000 + (c.sp - 6)) c.ax).store8 (0x90000 + l.bOdd) v).load16
          (ds l.BPB_BytsPerSec) = 512 := by
    rw [Layout.bOdd, ← hconst, Layout.BPB_BytsPerSec, ds_eq (by omega)]
    refine Outside.load16 (P := fun b => b = 0x90000 + (l.vars + 4) ∨
      Stack (c.sp - 6) c.sp b) ?_ ?_ ?_
    · refine Outside.trans (Outside.trans (Outside.trans
        (outside_store16 ?_ _ _) (outside_store16 ?_ _ _))
          (outside_store16 ?_ _ _)) (outside_store8 (Or.inl rfl) _ _)
      all_goals
        intro b hle hlt
        rw [Stack]
        omega
    · rw [Stack]
      omega
    · rw [Stack]
      omega
  simp only [fatRequest, Cpu.push, Cpu.top, h₂, h₄, h₆, hds₂, hds₄, hds₆, hdsOdd,
    load16_store16_same, hax₁₆, if_neg hquotient, hsize, hsector]
  rfl

end FatFrame

/-- What two bytes of the FAT say about an entry. -/
theorem fatEntry_eq {cluster odd w : Nat} (hodd : odd =
    if cluster * 3 % 2 = 0 then 0 else 1) (hw : w < 2 ^ 16)
    (hword : w = (image (512 + cluster * 3 / 2)).toNat +
      2 ^ 8 * (image (512 + cluster * 3 / 2 + 1)).toNat) :
    (if odd = 1 then w / 2 ^ 4 else w) % 0x1000 = fatEntry image cluster := by
  rw [fatEntry, SectorNoOfFAT1, Nat.one_mul, ← hword, hodd]
  by_cases heven : cluster % 2 = 0
  · have hthree : cluster * 3 % 2 = 0 := by omega
    rw [if_pos heven, if_pos hthree, if_neg Nat.zero_ne_one]
  · have hthree : ¬ cluster * 3 % 2 = 0 := by omega
    rw [if_neg heven, if_neg hthree, if_pos rfl]
    omega

theorem phys_scratch {r : Nat} (h : r < 512) :
    phys 0x7f00 (add16 0 r) = 0x7f000 + r := by
  rw [phys, add16]
  omega

/-- The part of `GetFATEntry` after its call finds two bytes of the FAT, and
the registers on the stack. -/
theorem fatAnswer_spec {e : Cpu} (hlo : 14 ≤ c.sp) (hhi : c.sp ≤ 0x100)
    (hbx : c.bx < 2 ^ 16) (hes : c.es < 2 ^ 16)
    (hread : SectorsRead image (c.ax * 3 / 2 / 512 + 1) 2 (fatCall l c) e) :
    FatRead l image c (fatAnswer l e) := by
  have hodd := bOdd_ge l
  have hsp : e.sp = c.sp - 6 := hread.sp
  have hes' : e.es = 0x7f00 := hread.es
  have hbx' : e.bx = 0 := hread.bx
  have hbuffer : (fatCall l c).es * 16 + (fatCall l c).bx = 0x7f000 := by
    simp only [fatCall]
  have hsp₀ : (fatCall l c).sp = c.sp - 6 := rfl
  have hmem₀ : (fatCall l c).mem = fatFrame l c := rfl
  have hdata := hread.data
  rw [hbuffer] at hdata
  have hout : Outside (fun b => Scratch b ∨ Stack 0 (c.sp - 6) b)
      (fatFrame l c) e.mem := by
    rw [← hmem₀]
    refine hread.outside.mono fun b hb => ?_
    rw [hbuffer, hsp₀, Stack] at hb
    rw [Scratch, Stack]
    omega
  have hkept {a : Nat} (ha : 0x90000 + (c.sp - 6) ≤ a) :
      e.mem.load16 a = (fatFrame l c).load16 a := by
    refine hout.load16 ?_ ?_
    all_goals
      rw [Scratch, Stack]
      omega
  have hdx : e.mem.load16 (0x90000 + (c.sp - 6)) = c.ax * 3 / 2 % 512 := by
    rw [hkept (Nat.le_refl _), fatFrame_dx]
  have hbxTop : e.mem.load16 (0x90000 + (c.sp - 4)) = c.bx := by
    rw [hkept (by omega), fatFrame_bx (by omega) hhi hbx]
  have hesTop : e.mem.load16 (0x90000 + (c.sp - 2)) = c.es := by
    rw [hkept (by omega), fatFrame_es (by omega) hhi hes]
  have hbOdd : e.mem.load8 (0x90000 + l.bOdd) =
      if c.ax * 3 % 2 = 0 then 0 else 1 := by
    rw [hout.load8, fatFrame_bOdd hhi]
    rw [Scratch, Stack]
    omega
  have hstart : (c.ax * 3 / 2 / 512 + 1) * 512 + c.ax * 3 / 2 % 512 =
      512 + c.ax * 3 / 2 := by omega
  have hword : e.mem.load16 (0x7f000 + c.ax * 3 / 2 % 512) =
      (image (512 + c.ax * 3 / 2)).toNat +
        2 ^ 8 * (image (512 + c.ax * 3 / 2 + 1)).toNat := by
    have hlow := hdata (c.ax * 3 / 2 % 512) (by omega)
    have hhigh := hdata (c.ax * 3 / 2 % 512 + 1) (by omega)
    rw [hstart] at hlow
    rw [← Nat.add_assoc, ← Nat.add_assoc, hstart] at hhigh
    rw [load16, load8, load8, hlow, hhigh]
  have hphys : phys 0x7f00 (add16 0 (c.ax * 3 / 2 % 512)) =
      0x7f000 + c.ax * 3 / 2 % 512 := phys_scratch (Nat.mod_lt _ (by decide))
  have hup₆ : add16 (c.sp - 6) 2 = c.sp - 4 :=
    add16_sub rfl (by omega) (by omega)
  have hup₄ : add16 (c.sp - 4) 2 = c.sp - 2 :=
    add16_sub rfl (by omega) (by omega)
  have hup₂ : add16 (c.sp - 2) 2 = c.sp := add16_sub rfl (by omega) (by omega)
  have hds₆ : ds (c.sp - 6) = 0x90000 + (c.sp - 6) := ds_eq (by omega)
  have hds₄ : ds (c.sp - 4) = 0x90000 + (c.sp - 4) := ds_eq (by omega)
  have hds₂ : ds (c.sp - 2) = 0x90000 + (c.sp - 2) := ds_eq (by omega)
  have hdsOdd : ds l.bOdd = 0x90000 + l.bOdd := ds_eq hodd.2
  have hentry := fatEntry_eq hbOdd (load16_lt _ _) hword
  simp only [fatAnswer, Cpu.top, Cpu.drop, hsp, hes', hbx', hup₆, hup₄, hup₂,
    hds₆, hds₄, hds₂, hdsOdd, hdx, hbxTop, hesTop, hphys, hentry]
  refine ⟨rfl, hread.label, hread.eaxh, rfl, hread.si, hread.di, rfl, rfl, ?_⟩
  refine Outside.trans ((outside_fatFrame (by omega)).mono fun b hb => ?_)
    (hout.mono fun b hb => ?_)
  · rw [Stack] at hb ⊢
    omega
  · rw [Scratch, Stack] at hb ⊢
    omega

theorem getFATEntry_spec (hbios : bios.Serves image) (hconsts : Consts l c.mem)
    (hlo : 14 ≤ c.sp) (hhi : c.sp ≤ 0x100) (hbx : c.bx < 2 ^ 16)
    (hes : c.es < 2 ^ 16) (hax : c.ax < 3072) :
    ∃ d, getFATEntry l bios c = some d ∧ FatRead l image c d := by
  have hlayout := l.bounds
  have hodd := bOdd_ge l
  have hframe := outside_fatFrame (l := l) (c := c) (by omega)
  have hkept {a : Nat} (hlo : 0x90100 ≤ a) (ha : a ≠ 0x90000 + l.bOdd) :
      (fatFrame l c).load8 a = c.mem.load8 a := by
    refine hframe.load8 ?_
    rw [Stack]
    omega
  have htrk : (fatFrame l c).load8 (ds l.BPB_SecPerTrk) = 18 := by
    rw [hkept, hconsts.secPerTrk]
    all_goals
      rw [Layout.BPB_SecPerTrk, ds_eq (by omega)]
      rw [Layout.bOdd] at *
      omega
  have hdrv : (fatFrame l c).load8 (ds l.BS_DrvNum) = 0 := by
    rw [hkept, hconsts.drvNum]
    all_goals
      rw [Layout.BS_DrvNum, ds_eq (by omega)]
      rw [Layout.bOdd] at *
      omega
  have hlow : low (fatCall l c).cx = 2 := low_bytes (by decide)
  have hsector : c.ax * 3 / 2 / 512 + 1 < 18 := by omega
  obtain ⟨e, he, hread⟩ := call_readSector (l := l) (c := fatCall l c)
    hbios .fatSector hlow htrk hdrv
    (show 8 ≤ c.sp - 6 by omega) (show c.sp - 6 ≤ 0x100 by omega)
    (show 0 < 2 ^ 16 by decide)
    (show FitsDma (0x7f00 * 16 + 0) 2 by rw [FitsDma]; decide)
    (show c.ax * 3 / 2 / 512 + 1 < 2880 by omega)
    (show (c.ax * 3 / 2 / 512 + 1) % 18 + 2 ≤ 18 by
      rw [Nat.mod_eq_of_lt hsector]
      omega)
  rw [getFATEntry, fatRequest_eq (by omega) hhi hconsts.bytsPerSec (by omega),
    Option.bind_some, he]
  refine ⟨fatAnswer l e, rfl, ?_⟩
  exact fatAnswer_spec hlo hhi hbx hes hread

theorem consts_of_outside {P : Nat → Prop} {m m' : ByteMem}
    (h : Consts l m) (hout : Outside P m m')
    (hP : ∀ b, 0x90100 ≤ b → (b < 0x90000 + l.vars ∨ 0x90000 + l.vars + 9 ≤ b) →
      ¬ P b) : Consts l m' := by
  have hlayout := l.bounds
  refine ⟨?_, ?_, ?_, ?_⟩
  · rw [hout.load16, h.bytsPerSec]
    all_goals
      rw [Layout.BPB_BytsPerSec, ds_eq (by omega)]
      exact hP _ (by omega) (by omega)
  · rw [hout.load8, h.secPerTrk]
    rw [Layout.BPB_SecPerTrk, ds_eq (by omega)]
    exact hP _ (by omega) (by omega)
  · rw [hout.load8, h.drvNum]
    rw [Layout.BS_DrvNum, ds_eq (by omega)]
    exact hP _ (by omega) (by omega)
  · refine h.name.outside hout fun b hle _ => ?_
    rw [Layout.KernelFileName, ds_eq (by omega)] at hle
    exact hP _ (by omega) (by omega)

/-- A call of a subroutine that finds an entry of the FAT. -/
theorem call_fatRead {f : Cpu → Option Cpu} (hlo : 16 ≤ c.sp)
    (hhi : c.sp ≤ 0x100)
    (hf : ∃ d, f (c.push (l.ip .fat)) = some d ∧
      FatRead l image (c.push (l.ip .fat)) d) :
    ∃ d, c.call (l.ip .fat) f = some d ∧ FatRead l image c d := by
  have hodd := bOdd_ge l
  have hsp := push_sp (c := c) (by omega) (by omega) (l.ip .fat)
  have hpush := outside_push (c := c) (by omega) (by omega) (l.ip .fat)
  have hregs := sameRegs_push c (l.ip .fat)
  have hcall (d : Cpu) (P : Nat → Prop) := call_eq (c := c) (d := d) (P := P)
    (f := f) (l.ip_lt .fat) (by omega) (by omega)
  generalize c.push (l.ip .fat) = p at hsp hpush hregs hcall hf
  obtain ⟨d, hd, hread⟩ := hf
  have hentry := hread.ax
  have hout := hread.outside
  rw [hregs.ax] at hentry
  rw [hsp] at hout
  have hnot (i : Nat) (hi : i < 2) : ¬ (Scratch (0x90000 + (c.sp - 2) + i) ∨
      0x90000 + (c.sp - 2) + i = 0x90000 + l.bOdd ∨
        Stack 0 (c.sp - 2) (0x90000 + (c.sp - 2) + i)) := by
    rw [Scratch, Stack]
    omega
  refine ⟨_, hcall d _ hd (hread.sp.trans hsp) hout (hnot 0 (by decide))
    (hnot 1 (by decide)), hentry, hread.label.trans hregs.label,
    hread.eaxh.trans hregs.eaxh, hread.bx.trans hregs.bx,
    hread.si.trans hregs.si, hread.di.trans hregs.di, rfl,
    hread.es.trans hregs.es, ?_⟩
  refine Outside.trans (hpush.mono fun b hb => ?_) (hout.mono fun b hb => ?_)
  · rw [Stack] at hb ⊢
    omega
  · rw [Scratch, Stack] at hb ⊢
    omega

theorem consts_push (ip : Nat) (hconsts : Consts l c.mem) (hlo : 2 ≤ c.sp)
    (hhi : c.sp ≤ 0x100) : Consts l (c.push ip).mem := by
  have hpush := outside_push (c := c) hlo (by omega) ip
  refine consts_of_outside hconsts hpush fun b hb _ => ?_
  rw [Stack]
  omega

theorem call_getFATEntry (hbios : bios.Serves image) (hconsts : Consts l c.mem)
    (hlo : 16 ≤ c.sp) (hhi : c.sp ≤ 0x100) (hbx : c.bx < 2 ^ 16)
    (hes : c.es < 2 ^ 16) (hax : c.ax ≤ 2848) :
    ∃ d, c.call (l.ip .fat) (getFATEntry l bios) = some d ∧
      FatRead l image c d := by
  have hsp := push_sp (c := c) (by omega) (by omega) (l.ip .fat)
  have hregs := sameRegs_push c (l.ip .fat)
  refine call_fatRead hlo hhi ?_
  exact getFATEntry_spec hbios (consts_push _ hconsts (by omega) hhi) (by omega)
    (by omega) (hregs.bx.symm ▸ hbx) (hregs.es.symm ▸ hes)
    (hregs.ax.symm ▸ Nat.lt_of_le_of_lt hax (by decide))

end LearningLinux.Loader
