import LearningLinux.Lib.ByteMem
import LearningLinux.Lib.Machine

/-!
# `InitKernel`

The part of the loader that copies the kernel from its file image to where it
runs, and the `MemCpy` that it calls, from label to label. The segments are
flat, and paging is an identity map by now.

The loop copies what each program header with a type says, whatever the type
is, and it copies the bytes that are in the file: the rest of a segment up to
`p_memsz` stays as it was. Since no destination is in the file, a header that
is read later is still the one of the file.
-/

namespace LearningLinux.Elf

open LearningLinux.Lib LearningLinux.Lib.ByteMem

def BaseOfKernelFilePhyAddr : Nat := 0x80000

/-! ## The code -/

inductive Label where
  | InitKernel
  | Begin
  | NoAction
  | MemCpy
  | MemCpy_1
  | MemCpy_2
  | ret
deriving DecidableEq, Repr

structure Cpu where
  label : Label
  eax : Nat
  ecx : Nat
  esi : Nat
  edi : Nat
  ebp : Nat
  esp : Nat
  mem : ByteMem

@[irreducible]
def add32 (a b : Nat) : Nat := (a + b) % 2 ^ 32

@[irreducible]
def sub32 (a b : Nat) : Nat := (a + (2 ^ 32 - b)) % 2 ^ 32

def Cpu.push (c : Cpu) (v : Nat) : Cpu :=
  { c with
    esp := sub32 c.esp 4
    mem := c.mem.store32 (sub32 c.esp 4) v }

/-- What is on top of the stack. -/
def Cpu.top (c : Cpu) : Nat := c.mem.load32 c.esp

def Cpu.drop (c : Cpu) : Cpu := { c with esp := add32 c.esp 4 }

/-- `ip` is the address behind the call of `MemCpy`. -/
def Cpu.step (ip : Nat) (c : Cpu) : Option Cpu :=
  match c.label with
  | .InitKernel =>
      some { c with
        label := .Begin
        ecx := c.mem.load16 (BaseOfKernelFilePhyAddr + 0x2c)
        esi := add32 (c.mem.load32 (BaseOfKernelFilePhyAddr + 0x1c))
          BaseOfKernelFilePhyAddr }
  | .Begin =>
      let eax := c.mem.load32 c.esi
      if eax = 0 then
        some { c with
          label := .NoAction
          eax := eax }
      else
        let c := c.push (c.mem.load32 (add32 c.esi 0x10))
        let eax := add32 (c.mem.load32 (add32 c.esi 0x04))
          BaseOfKernelFilePhyAddr
        let c := c.push eax
        let c := c.push (c.mem.load32 (add32 c.esi 0x08))
        some { c.push ip with
          label := .MemCpy
          eax := eax }
  | .MemCpy =>
      let c := c.push c.ebp
      let ebp := c.esp
      let c := ((c.push c.esi).push c.edi).push c.ecx
      some { c with
        label := .MemCpy_1
        ecx := c.mem.load32 (add32 ebp 16)
        esi := c.mem.load32 (add32 ebp 12)
        edi := c.mem.load32 (add32 ebp 8)
        ebp := ebp }
  | .MemCpy_1 =>
      if c.ecx = 0 then some { c with label := .MemCpy_2 }
      else
        let al := c.mem.load8 c.esi
        some { c with
          eax := c.eax / 2 ^ 8 * 2 ^ 8 + al
          ecx := c.ecx - 1
          esi := add32 c.esi 1
          edi := add32 c.edi 1
          mem := c.mem.store8 c.edi al }
  | .MemCpy_2 =>
      let eax := c.mem.load32 (add32 c.ebp 8)
      let ecx := c.top
      let c := c.drop
      let edi := c.top
      let c := c.drop
      let esi := c.top
      let c := { c with esp := c.ebp }
      let ebp := c.top
      let c := c.drop
      if c.top = ip then
        some { c.drop with
          label := .NoAction
          eax := eax
          ecx := ecx
          esi := esi
          edi := edi
          ebp := ebp
          esp := add32 c.drop.esp 12 }
      else none
  | .NoAction =>
      let ecx := sub32 c.ecx 1
      some { c with
        label := if ecx = 0 then .ret else .Begin
        ecx := ecx
        esi := add32 c.esi 0x20 }
  | .ret => none

/-! ## The file -/

section File

variable (m : ByteMem)

def e_phoff : Nat := m.load32 (BaseOfKernelFilePhyAddr + 0x1c)
def e_phentsize : Nat := m.load16 (BaseOfKernelFilePhyAddr + 0x2a)
def e_phnum : Nat := m.load16 (BaseOfKernelFilePhyAddr + 0x2c)

/-- The program header number `i`, of 32 bytes. -/
def phdr (i : Nat) : Nat := BaseOfKernelFilePhyAddr + e_phoff m + 32 * i

def p_type (i : Nat) : Nat := m.load32 (phdr m i)
def p_offset (i : Nat) : Nat := m.load32 (phdr m i + 0x04)
def p_vaddr (i : Nat) : Nat := m.load32 (phdr m i + 0x08)
def p_filesz (i : Nat) : Nat := m.load32 (phdr m i + 0x10)
def p_memsz (i : Nat) : Nat := m.load32 (phdr m i + 0x14)

/-- Where the bytes of a header go. -/
def Dest (i b : Nat) : Prop :=
  p_type m i ≠ 0 ∧ p_vaddr m i ≤ b ∧ b < p_vaddr m i + p_filesz m i

end File

def InFile (size b : Nat) : Prop :=
  BaseOfKernelFilePhyAddr ≤ b ∧ b < BaseOfKernelFilePhyAddr + size

/-- The stack that `InitKernel` needs when it has been called. -/
def OnStack (esp b : Nat) : Prop := esp - 32 ≤ b ∧ b < esp

/-- A file of `size` bytes that can be loaded: it has program headers, and
their destinations are apart from each other, from the file and from the
stack. -/
structure Loadable (m : ByteMem) (size esp : Nat) : Prop where
  phentsize : e_phentsize m = 32
  phnum : 1 ≤ e_phnum m
  header : 52 ≤ size
  table : e_phoff m + 32 * e_phnum m ≤ size
  file : BaseOfKernelFilePhyAddr + size ≤ 2 ^ 32
  source : ∀ i < e_phnum m, p_type m i ≠ 0 →
    p_offset m i + p_filesz m i ≤ size
  dest : ∀ i < e_phnum m, p_type m i ≠ 0 →
    p_vaddr m i + p_filesz m i ≤ 2 ^ 32
  dest_file : ∀ i < e_phnum m, ∀ b, Dest m i b → ¬ InFile size b
  dest_stack : ∀ i < e_phnum m, ∀ b, Dest m i b → ¬ OnStack esp b
  apart : ∀ i < e_phnum m, ∀ j < e_phnum m, i ≠ j →
    ∀ b, Dest m i b → ¬ Dest m j b
  stack : 32 ≤ esp ∧ esp < 2 ^ 32
  stack_file : ∀ b, OnStack esp b → ¬ InFile size b

/-! ## Arithmetic -/

theorem add32_eq {a b : Nat} (h : a + b < 2 ^ 32) : add32 a b = a + b := by
  rw [add32, Nat.mod_eq_of_lt h]

theorem add32_lt (a b : Nat) : add32 a b < 2 ^ 32 := by
  rw [add32]
  exact Nat.mod_lt _ (by decide)

theorem sub32_eq {a b : Nat} (hle : b ≤ a) (hlt : a < 2 ^ 32) :
    sub32 a b = a - b := by
  rw [sub32]
  omega

/-- A step back on the stack, or up from its frame. -/
theorem add32_sub {a b d k : Nat} (hd : d = b + k) (hle : d ≤ a)
    (hlt : a < 2 ^ 32) : add32 (a - d) k = a - b := by
  rw [add32]
  omega

theorem sub32_sub {a d k : Nat} (hle : d + k ≤ a) (hlt : a < 2 ^ 32) :
    sub32 (a - d) k = a - (d + k) := by
  rw [sub32]
  omega

/-! ## `MemCpy` -/

variable {ip S : Nat} {c d : Cpu} {m : ByteMem}

/-- The memory with the frame of a call of `MemCpy`: from the arguments down
to the saved registers. -/
def frame (ip S filesz src dst : Nat) (c : Cpu) : ByteMem :=
  (((((((c.mem.store32 (S - 4) filesz).store32 (S - 8) src).store32 (S - 12)
    dst).store32 (S - 16) ip).store32 (S - 20) c.ebp).store32 (S - 24)
      c.esi).store32 (S - 28) c.edi).store32 (S - 32) c.ecx

section Frame

variable {filesz src dst : Nat} (hlo : 32 ≤ S)

include hlo

theorem outside_frame :
    Outside (OnStack S) c.mem (frame ip S filesz src dst c) := by
  have hwrite {k : Nat} (hk : k ≤ 32) (hk' : 4 ≤ k) (m : ByteMem) (v : Nat) :
      Outside (OnStack S) m (m.store32 (S - k) v) := by
    refine outside_store32 (fun b hle hlt => ?_) m v
    rw [OnStack]
    omega
  exact ((((((((hwrite (by decide) (by decide) _ _).trans
    (hwrite (by decide) (by decide) _ _)).trans
    (hwrite (by decide) (by decide) _ _)).trans
    (hwrite (by decide) (by decide) _ _)).trans
    (hwrite (by decide) (by decide) _ _)).trans
    (hwrite (by decide) (by decide) _ _)).trans
    (hwrite (by decide) (by decide) _ _)).trans
    (hwrite (by decide) (by decide) _ _))

theorem frame_filesz (h : filesz < 2 ^ 32) :
    (frame ip S filesz src dst c).load32 (S - 4) = filesz := by
  simp (disch := omega) only [frame, load32_store32_apart,
    load32_store32_same]

theorem frame_src (h : src < 2 ^ 32) :
    (frame ip S filesz src dst c).load32 (S - 8) = src := by
  simp (disch := omega) only [frame, load32_store32_apart,
    load32_store32_same]

theorem frame_dst (h : dst < 2 ^ 32) :
    (frame ip S filesz src dst c).load32 (S - 12) = dst := by
  simp (disch := omega) only [frame, load32_store32_apart,
    load32_store32_same]

theorem frame_ip (h : ip < 2 ^ 32) :
    (frame ip S filesz src dst c).load32 (S - 16) = ip := by
  simp (disch := omega) only [frame, load32_store32_apart,
    load32_store32_same]

theorem frame_esi (h : c.esi < 2 ^ 32) :
    (frame ip S filesz src dst c).load32 (S - 24) = c.esi := by
  simp (disch := omega) only [frame, load32_store32_apart,
    load32_store32_same]

omit hlo in
theorem frame_ecx (h : c.ecx < 2 ^ 32) :
    (frame ip S filesz src dst c).load32 (S - 32) = c.ecx := by
  rw [frame, load32_store32_same h]

end Frame

/-- In the loop of `MemCpy`, with `k` bytes of `count` copied to a memory that
was `m`. -/
structure Copying (S src dst count : Nat) (m : ByteMem) (k : Nat) (c : Cpu) :
    Prop where
  label : c.label = .MemCpy_1
  ecx : c.ecx = count - k
  esi : c.esi = (src + k) % 2 ^ 32
  edi : c.edi = (dst + k) % 2 ^ 32
  ebp : c.ebp = S - 20
  esp : c.esp = S - 32
  mem : c.mem = m.write dst k fun j => m.byte (src + j)

/-- One byte more has been written. -/
theorem write_succ {a k : Nat} {data : Nat → UInt8} :
    (m.write a k data).store8 (a + k) (data k).toNat =
      m.write a (k + 1) data := by
  have hbyte (b : Nat) : ((m.write a k data).store8 (a + k)
      (data k).toNat).byte b = (m.write a (k + 1) data).byte b := by
    by_cases heq : b = a + k
    · subst heq
      rw [write_inside (Nat.lt_succ_self k)]
      exact (if_pos rfl).trans UInt8.ofNat_toNat
    · rw [store8_apart heq]
      by_cases hin : a ≤ b ∧ b < a + k
      · obtain ⟨j, rfl⟩ := Nat.exists_eq_add_of_le hin.1
        rw [write_inside (by omega), write_inside (by omega)]
      · rw [write_outside (by omega), write_outside (by omega)]
  exact congrArg ByteMem.mk (funext hbyte)

theorem write_zero {a : Nat} {data : Nat → UInt8} : m.write a 0 data = m :=
  congrArg ByteMem.mk (funext fun _ => write_outside (by omega))

theorem copying_step (ip : Nat) {src dst count k : Nat}
    (hsrc : src + count ≤ 2 ^ 32)
    (hdst : dst + count ≤ 2 ^ 32)
    (hapart : ∀ b, src ≤ b → b < src + count → b < dst ∨ dst + count ≤ b)
    (hk : k < count) (h : Copying S src dst count m k c) :
    ∃ d, c.step ip = some d ∧ Copying S src dst count m (k + 1) d := by
  have hesi : c.esi = src + k := by
    rw [h.esi]
    omega
  have hedi : c.edi = dst + k := by
    rw [h.edi]
    omega
  have hecx : ¬ c.ecx = 0 := by
    rw [h.ecx]
    omega
  have hbyte : c.mem.load8 c.esi = (m.byte (src + k)).toNat := by
    have hout := hapart (src + k) (by omega) (by omega)
    rw [load8, hesi, h.mem, write_outside (by omega)]
  refine ⟨{ c with
    eax := c.eax / 2 ^ 8 * 2 ^ 8 + c.mem.load8 c.esi
    ecx := c.ecx - 1
    esi := add32 c.esi 1
    edi := add32 c.edi 1
    mem := c.mem.store8 c.edi (c.mem.load8 c.esi) }, ?_, h.label, ?_, ?_, ?_,
    h.ebp, h.esp, ?_⟩
  · rw [Cpu.step, h.label]
    exact if_neg hecx
  · dsimp only
    rw [h.ecx]
    omega
  · dsimp only
    rw [add32, hesi]
    omega
  · dsimp only
    rw [add32, hedi]
    omega
  · dsimp only
    rw [hbyte, hedi, h.mem]
    exact write_succ

/-! ## One header -/

/-- At a header, which is at `esi`. -/
structure AtHeader (S : Nat) (c : Cpu) : Prop where
  label : c.label = .Begin
  esp : c.esp = S
  esi : c.esi + 32 ≤ 2 ^ 32
  ecx : c.ecx < 2 ^ 32

/-- Its bytes have been copied. -/
structure Copied (S : Nat) (c d : Cpu) : Prop where
  label : d.label = .NoAction
  esp : d.esp = S
  esi : d.esi = c.esi
  ecx : d.ecx = c.ecx

theorem skip_header (ip : Nat) (h : AtHeader S c)
    (hnull : c.mem.load32 c.esi = 0) :
    ∃ d, c.step ip = some d ∧ Copied S c d ∧ d.mem = c.mem := by
  refine ⟨{ c with
    label := .NoAction
    eax := c.mem.load32 c.esi }, ?_, ⟨rfl, h.esp, rfl, rfl⟩, rfl⟩
  rw [Cpu.step, h.label]
  exact if_pos hnull

/-- What the call of `MemCpy` gets to: its loop. -/
theorem call_MemCpy (ip : Nat) {filesz src dst : Nat} (h : AtHeader S c)
    (hlo : 32 ≤ S) (hhi : S < 2 ^ 32) (htype : c.mem.load32 c.esi ≠ 0)
    (hstack : c.esi + 32 ≤ S - 32 ∨ S ≤ c.esi)
    (hfilesz : c.mem.load32 (c.esi + 0x10) = filesz)
    (hsrc : add32 (c.mem.load32 (c.esi + 0x04)) BaseOfKernelFilePhyAddr = src)
    (hdst : c.mem.load32 (c.esi + 0x08) = dst) :
    ∃ d, Reaches (Cpu.step ip) c d ∧
      Copying S src dst filesz (frame ip S filesz src dst c) 0 d := by
  have hesi := h.esi
  have h₄ : sub32 S 4 = S - 4 := sub32_eq (by omega) hhi
  have h₈ : sub32 (S - 4) 4 = S - 8 := sub32_sub (by omega) hhi
  have h₁₂ : sub32 (S - 8) 4 = S - 12 := sub32_sub (by omega) hhi
  have h₁₆ : sub32 (S - 12) 4 = S - 16 := sub32_sub (by omega) hhi
  have h₂₀ : sub32 (S - 16) 4 = S - 20 := sub32_sub (by omega) hhi
  have h₂₄ : sub32 (S - 20) 4 = S - 24 := sub32_sub (by omega) hhi
  have h₂₈ : sub32 (S - 24) 4 = S - 28 := sub32_sub (by omega) hhi
  have h₃₂ : sub32 (S - 28) 4 = S - 32 := sub32_sub (by omega) hhi
  have hp₁₀ : add32 c.esi 0x10 = c.esi + 0x10 := add32_eq (by omega)
  have hp₄ : add32 c.esi 0x04 = c.esi + 0x04 := add32_eq (by omega)
  have hp₈ : add32 c.esi 0x08 = c.esi + 0x08 := add32_eq (by omega)
  have hsrc' (v : Nat) : add32 ((c.mem.store32 (S - 4) v).load32
      (c.esi + 0x04)) BaseOfKernelFilePhyAddr = src := by
    rw [load32_store32_apart (by omega), hsrc]
  have hdst' (v w : Nat) : ((c.mem.store32 (S - 4) v).store32 (S - 8) w).load32
      (c.esi + 0x08) = dst := by
    rw [load32_store32_apart (by omega), load32_store32_apart (by omega), hdst]
  have hbegin : c.step ip = some { c with
      label := .MemCpy
      eax := src
      esp := S - 16
      mem := (((c.mem.store32 (S - 4) filesz).store32 (S - 8) src).store32
        (S - 12) dst).store32 (S - 16) ip } := by
    rw [Cpu.step, h.label]
    simp only [if_neg htype, Cpu.push, h.esp, h₄, h₈, h₁₂, h₁₆, hp₁₀, hp₄, hp₈,
      hfilesz, hsrc', hdst']
  have hup₈ : add32 (S - 20) 8 = S - 12 := add32_sub rfl (by omega) hhi
  have hup₁₂ : add32 (S - 20) 12 = S - 8 := add32_sub rfl (by omega) hhi
  have hup₁₆ : add32 (S - 20) 16 = S - 4 := add32_sub rfl (by omega) hhi
  have hframe : ((((((((c.mem.store32 (S - 4) filesz).store32 (S - 8)
      src).store32 (S - 12) dst).store32 (S - 16) ip).store32 (S - 20)
        c.ebp).store32 (S - 24) c.esi).store32 (S - 28) c.edi).store32 (S - 32)
          c.ecx) = frame ip S filesz src dst c := rfl
  have hcount : (frame ip S filesz src dst c).load32 (S - 4) = filesz :=
    frame_filesz hlo (hfilesz ▸ load32_lt _ _)
  have hfrom : (frame ip S filesz src dst c).load32 (S - 8) = src :=
    frame_src hlo (hsrc ▸ add32_lt _ _)
  have hto : (frame ip S filesz src dst c).load32 (S - 12) = dst :=
    frame_dst hlo (hdst ▸ load32_lt _ _)
  refine ⟨_, (Reaches.single hbegin).trans (Reaches.single rfl), rfl, ?_, ?_,
    ?_, ?_, ?_, ?_⟩
  all_goals
    simp only [Cpu.push, h₂₀, h₂₄, h₂₈, h₃₂, hup₈, hup₁₂, hup₁₆, hframe, hcount,
      hfrom, hto, Nat.sub_zero, Nat.add_zero]
  · rw [← hsrc, Nat.mod_eq_of_lt (add32_lt _ _)]
  · rw [← hdst, Nat.mod_eq_of_lt (load32_lt _ _)]
  · exact write_zero.symm

/-- The way back from the loop. -/
theorem return_MemCpy {filesz src dst : Nat} {c₀ : Cpu} (h₀ : AtHeader S c₀)
    (hesi : c₀.esi < 2 ^ 32) (hlo : 32 ≤ S) (hhi : S < 2 ^ 32)
    (hip : ip < 2 ^ 32)
    (hstack : ∀ b, dst ≤ b → b < dst + filesz → ¬ OnStack S b)
    (h : Copying S src dst filesz (frame ip S filesz src dst c₀) filesz c) :
    ∃ d, Reaches (Cpu.step ip) c d ∧ Copied S c₀ d ∧ d.mem = c.mem := by
  have hzero : c.ecx = 0 := by rw [h.ecx, Nat.sub_self]
  have hloop : c.step ip = some { c with label := .MemCpy_2 } := by
    rw [Cpu.step, h.label]
    exact if_pos hzero
  have hload {k : Nat} (hk : k ≤ 32) (hk' : 4 ≤ k) :
      c.mem.load32 (S - k) =
        (frame ip S filesz src dst c₀).load32 (S - k) := by
    rw [h.mem]
    refine load32_congr fun b hle hlt => write_outside ?_
    by_contra hin
    exact hstack b (by omega) (by omega) ⟨by omega, by omega⟩
  have hecx := (hload (k := 32) (by decide) (by decide)).trans
    (frame_ecx h₀.ecx)
  have hesi := (hload (k := 24) (by decide) (by decide)).trans
    (frame_esi hlo hesi)
  have hret := (hload (k := 16) (by decide) (by decide)).trans
    (frame_ip hlo hip)
  have h₂₈ : add32 (S - 32) 4 = S - 28 := add32_sub rfl (by omega) hhi
  have h₂₄ : add32 (S - 28) 4 = S - 24 := add32_sub rfl (by omega) hhi
  have h₁₆ : add32 (S - 20) 4 = S - 16 := add32_sub rfl (by omega) hhi
  have h₁₂ : add32 (S - 16) 4 = S - 12 := add32_sub rfl (by omega) hhi
  have h₀' : add32 (S - 12) 12 = S := by
    rw [add32_eq (by omega)]
    omega
  have hreturn : Cpu.step ip { c with label := .MemCpy_2 } = some { c with
      label := .NoAction
      eax := c.mem.load32 (add32 (S - 20) 8)
      ecx := c₀.ecx
      esi := c₀.esi
      edi := c.mem.load32 (S - 28)
      ebp := c.mem.load32 (S - 20)
      esp := S } := by
    rw [Cpu.step]
    simp only [Cpu.top, Cpu.drop, h.esp, h.ebp, h₂₈, h₂₄, h₁₆, h₁₂, h₀', hecx,
      hesi, hret, if_true]
  exact ⟨_, (Reaches.single hloop).trans (Reaches.single hreturn),
    ⟨rfl, rfl, rfl, rfl⟩, rfl⟩

/-- A header that is not null: its bytes are copied, and besides them only the
stack changes. -/
theorem copy_header {filesz src dst : Nat} (h : AtHeader S c)
    (hlo : 32 ≤ S) (hhi : S < 2 ^ 32) (hip : ip < 2 ^ 32)
    (htype : c.mem.load32 c.esi ≠ 0)
    (hheader : c.esi + 32 ≤ S - 32 ∨ S ≤ c.esi) (hesi : c.esi < 2 ^ 32)
    (hfilesz : c.mem.load32 (c.esi + 0x10) = filesz)
    (hsrc : add32 (c.mem.load32 (c.esi + 0x04)) BaseOfKernelFilePhyAddr = src)
    (hdst : c.mem.load32 (c.esi + 0x08) = dst)
    (hsrc_lt : src + filesz ≤ 2 ^ 32) (hdst_lt : dst + filesz ≤ 2 ^ 32)
    (hapart : ∀ b, src ≤ b → b < src + filesz → b < dst ∨ dst + filesz ≤ b)
    (hsrc_stack : ∀ b, src ≤ b → b < src + filesz → ¬ OnStack S b)
    (hdst_stack : ∀ b, dst ≤ b → b < dst + filesz → ¬ OnStack S b) :
    ∃ d, Reaches (Cpu.step ip) c d ∧ Copied S c d ∧
      (∀ k < filesz, d.mem.byte (dst + k) = c.mem.byte (src + k)) ∧
      Outside (fun b => OnStack S b ∨ (dst ≤ b ∧ b < dst + filesz)) c.mem
        d.mem := by
  obtain ⟨d₁, hcall, hstart⟩ := call_MemCpy ip h hlo hhi htype
    hheader hfilesz hsrc hdst
  obtain ⟨d₂, hloop, hend⟩ : ∃ d₂, Reaches (Cpu.step ip) d₁ d₂ ∧
      Copying S src dst filesz (frame ip S filesz src dst c) filesz d₂ := by
    refine Reaches.count hstart fun k hk c hc => ?_
    obtain ⟨d, hstep, hd⟩ := copying_step ip hsrc_lt hdst_lt hapart
      hk hc
    exact ⟨d, Reaches.single hstep, hd⟩
  obtain ⟨d, hreturn, hcopied, hmem⟩ := return_MemCpy h hesi hlo hhi hip
    hdst_stack hend
  have hout : Outside (OnStack S) c.mem (frame ip S filesz src dst c) :=
    outside_frame hlo
  refine ⟨d, (hcall.trans hloop).trans hreturn, hcopied, fun k hk => ?_, ?_⟩
  · rw [hmem, hend.mem, write_inside hk]
    exact hout _ (hsrc_stack _ (Nat.le_add_right _ _) (by omega))
  · rw [hmem, hend.mem]
    exact (hout.mono fun b => Or.inl).trans
      (outside_write (fun b hle hlt => Or.inr ⟨hle, hlt⟩) _ _)

/-! ## The loop over the headers -/

/-- The headers before number `i` have been dealt with. -/
structure Progress (m : ByteMem) (S i : Nat) (c : Cpu) : Prop where
  label : c.label = if i = e_phnum m then .ret else .Begin
  esp : c.esp = S
  ecx : c.ecx = e_phnum m - i
  esi : c.esi = phdr m i % 2 ^ 32
  copied : ∀ j < i, p_type m j ≠ 0 → ∀ k < p_filesz m j,
    c.mem.byte (p_vaddr m j + k) =
      m.byte (BaseOfKernelFilePhyAddr + p_offset m j + k)
  outside : Outside (fun b => OnStack S b ∨ ∃ j < i, Dest m j b) m c.mem

section Progress

variable {size i : Nat} (hm : Loadable m size S) (hi : i < e_phnum m)

include hm hi

/-- Nothing has been written to the file. -/
theorem Progress.file (h : Progress m S i c) {b : Nat} (hb : InFile size b) :
    c.mem.byte b = m.byte b := by
  refine h.outside b ?_
  rintro (hstack | ⟨j, hj, hdest⟩)
  · exact hm.stack_file b hstack hb
  · exact hm.dest_file j (Nat.lt_trans hj hi) b hdest hb

theorem inFile_phdr {k : Nat} (hk : k < 32) : InFile size (phdr m i + k) := by
  have htable := hm.table
  have hmul : 32 * i + 32 ≤ 32 * e_phnum m := by omega
  rw [InFile, phdr]
  omega

/-- So a header is still the one of the file. -/
theorem Progress.load32 (h : Progress m S i c) {k : Nat} (hk : k + 4 ≤ 32) :
    c.mem.load32 (phdr m i + k) = m.load32 (phdr m i + k) := by
  refine load32_congr fun b hle hlt => ?_
  obtain ⟨j, rfl⟩ := Nat.exists_eq_add_of_le hle
  rw [Nat.add_assoc]
  exact h.file hm hi (inFile_phdr hm hi (by omega))

theorem phdr_lt : phdr m i + 32 ≤ 2 ^ 32 := by
  have hlast := inFile_phdr hm hi (k := 31) (by decide)
  have hfile := hm.file
  rw [InFile] at hlast
  omega

/-- A header is apart from the stack. -/
theorem phdr_stack : phdr m i + 32 ≤ S - 32 ∨ S ≤ phdr m i := by
  by_contra hboth
  have hstack := hm.stack
  rcases Nat.le_total (phdr m i) (S - 32) with hle | hle
  · obtain ⟨k, hk⟩ := Nat.exists_eq_add_of_le hle
    refine hm.stack_file (S - 32) ⟨Nat.le_refl _, by omega⟩ ?_
    rw [hk]
    exact inFile_phdr hm hi (by omega)
  · exact hm.stack_file (phdr m i) ⟨hle, by omega⟩
      (inFile_phdr hm hi (k := 0) (by decide))

omit hm in
theorem progress_next (ip : Nat) (h : Progress m S i c) (hd : Copied S c d)
    (hcopied : ∀ j < i + 1, p_type m j ≠ 0 → ∀ k < p_filesz m j,
      d.mem.byte (p_vaddr m j + k) =
        m.byte (BaseOfKernelFilePhyAddr + p_offset m j + k))
    (hout : Outside (fun b => OnStack S b ∨ ∃ j < i + 1, Dest m j b) m d.mem) :
    ∃ e, d.step ip = some e ∧ Progress m S (i + 1) e := by
  have hphnum : e_phnum m < 2 ^ 16 := load16_lt _ _
  have hecx : sub32 d.ecx 1 = e_phnum m - (i + 1) := by
    rw [hd.ecx, h.ecx, sub32]
    omega
  have hesi : add32 d.esi 0x20 = phdr m (i + 1) % 2 ^ 32 := by
    rw [hd.esi, h.esi, add32, phdr, phdr]
    omega
  refine ⟨{ d with
    label := if sub32 d.ecx 1 = 0 then .ret else .Begin
    ecx := sub32 d.ecx 1
    esi := add32 d.esi 0x20 }, ?_, ?_, hd.esp, hecx, hesi, hcopied, hout⟩
  · rw [Cpu.step, hd.label]
  · dsimp only
    rw [hecx]
    by_cases hlast : i + 1 = e_phnum m
    · rw [if_pos hlast, if_pos (by omega)]
    · rw [if_neg hlast, if_neg (by omega)]

/-- One header. -/
theorem progress_step (hip : ip < 2 ^ 32) (h : Progress m S i c) :
    ∃ e, Reaches (Cpu.step ip) c e ∧ Progress m S (i + 1) e := by
  have hlt := phdr_lt hm hi
  have hfile := hm.file
  have hphnum : e_phnum m < 2 ^ 16 := load16_lt _ _
  have hesi : c.esi = phdr m i := by
    rw [h.esi]
    omega
  have hat : AtHeader S c := by
    refine ⟨?_, h.esp, by omega, ?_⟩
    · rw [h.label, if_neg (by omega)]
    · rw [h.ecx]
      omega
  have htype : c.mem.load32 c.esi = p_type m i := by
    rw [hesi]
    exact h.load32 hm hi (k := 0) (by decide)
  by_cases hnull : p_type m i = 0
  · -- a header that is null
    obtain ⟨d, hstep, hd, hmem⟩ := skip_header ip hat
      (htype.trans hnull)
    obtain ⟨e, hnext, he⟩ := progress_next hi ip h hd
      (fun j hj hne k hk => by
        rcases Nat.lt_succ_iff_lt_or_eq.mp hj with hj | rfl
        · rw [hmem]
          exact h.copied j hj hne k hk
        · exact absurd hnull hne)
      (hmem ▸ h.outside.mono fun b hb => hb.imp_right
        fun ⟨j, hj, hdest⟩ => ⟨j, Nat.lt_succ_of_lt hj, hdest⟩)
    exact ⟨e, (Reaches.single hstep).trans (Reaches.single hnext), he⟩
  · have hfilesz : c.mem.load32 (c.esi + 0x10) = p_filesz m i := by
      rw [hesi]
      exact h.load32 hm hi (by decide)
    have hoffset : c.mem.load32 (c.esi + 0x04) = p_offset m i := by
      rw [hesi]
      exact h.load32 hm hi (by decide)
    have hvaddr : c.mem.load32 (c.esi + 0x08) = p_vaddr m i := by
      rw [hesi]
      exact h.load32 hm hi (by decide)
    have hsource := hm.source i hi hnull
    have hsrc_eq : 0 < p_filesz m i →
        add32 (p_offset m i) BaseOfKernelFilePhyAddr =
          BaseOfKernelFilePhyAddr + p_offset m i := by
      intro hpos
      rw [add32_eq (by omega), Nat.add_comm]
    have hsrc_lt := add32_lt (p_offset m i) BaseOfKernelFilePhyAddr
    generalize hsrc : add32 (p_offset m i) BaseOfKernelFilePhyAddr = src
      at hsrc_eq hsrc_lt
    have hin {b : Nat} (hle : src ≤ b) (hb : b < src + p_filesz m i) :
        InFile size b := by
      have heq := hsrc_eq (by omega)
      rw [InFile]
      omega
    obtain ⟨d, hcopy, hd, hbytes, hout⟩ := copy_header hat
      hm.stack.1 hm.stack.2 hip (htype ▸ hnull)
      (hesi.symm ▸ phdr_stack hm hi) (by omega) hfilesz (hoffset.symm ▸ hsrc)
      hvaddr (by omega) (hm.dest i hi hnull)
      (fun b hle hb => by
        by_contra hdest
        exact hm.dest_file i hi b ⟨hnull, by omega⟩ (hin hle hb))
      (fun b hle hb hstack => hm.stack_file b hstack (hin hle hb))
      (fun b hle hb => hm.dest_stack i hi b ⟨hnull, hle, hb⟩)
    obtain ⟨e, hnext, he⟩ := progress_next hi ip h hd
      (fun j hj hne k hk => by
        rcases Nat.lt_succ_iff_lt_or_eq.mp hj with hj | rfl
        · have hdest : Dest m j (p_vaddr m j + k) := ⟨hne, by omega⟩
          have hj' := Nat.lt_trans hj hi
          rw [hout _ (not_or.mpr ⟨hm.dest_stack j hj' _ hdest, fun hb =>
            hm.apart j hj' i hi (Nat.ne_of_lt hj) _ hdest ⟨hnull, hb⟩⟩)]
          exact h.copied j hj hne k hk
        · rw [hbytes k hk, ← hsrc_eq (by omega)]
          exact h.file hm hi (hin (by omega) (by omega)))
      ((h.outside.mono fun b hb => hb.imp_right fun ⟨j, hj, hdest⟩ =>
        ⟨j, Nat.lt_succ_of_lt hj, hdest⟩).trans
          (hout.mono fun b hb => hb.imp_right fun hb =>
            ⟨i, Nat.lt_succ_self i, hnull, hb⟩))
    exact ⟨e, hcopy.trans (Reaches.single hnext), he⟩

end Progress

/-! ## `InitKernel` -/

theorem initKernel_run {size : Nat} (hm : Loadable c.mem size c.esp)
    (hlabel : c.label = .InitKernel) (hip : ip < 2 ^ 32) :
    ∃ d, Reaches (Cpu.step ip) c d ∧
      Progress c.mem c.esp (e_phnum c.mem) d := by
  have hfirst : c.step ip = some { c with
      label := .Begin
      ecx := e_phnum c.mem
      esi := add32 (e_phoff c.mem) BaseOfKernelFilePhyAddr } := by
    rw [Cpu.step, hlabel]
    rfl
  have hphnum := hm.phnum
  have hstart : Progress c.mem c.esp 0 { c with
      label := .Begin
      ecx := e_phnum c.mem
      esi := add32 (e_phoff c.mem) BaseOfKernelFilePhyAddr } := by
    refine ⟨?_, rfl, rfl, ?_, nofun, Outside.refl _ _⟩
    · rw [if_neg (by omega)]
    · dsimp only
      rw [add32, phdr, Nat.add_comm, Nat.mul_zero, Nat.add_zero]
  obtain ⟨d, hreach, hd⟩ := Reaches.count hstart fun i hi e he =>
    progress_step hm hi hip he
  exact ⟨d, (Reaches.single hfirst).trans hreach, hd⟩

/-- The bytes that the file has for its headers are where the headers say, and
nothing else but the stack has changed. -/
theorem initKernel_copies {size : Nat} (hm : Loadable c.mem size c.esp)
    (hlabel : c.label = .InitKernel) (hip : ip < 2 ^ 32) :
    ∃ d, Reaches (Cpu.step ip) c d ∧ d.label = .ret ∧
      (∀ i < e_phnum c.mem, p_type c.mem i ≠ 0 → ∀ k < p_filesz c.mem i,
        d.mem.byte (p_vaddr c.mem i + k) =
          c.mem.byte (BaseOfKernelFilePhyAddr + p_offset c.mem i + k)) ∧
      Outside (fun b => OnStack c.esp b ∨
        ∃ i < e_phnum c.mem, Dest c.mem i b) c.mem d.mem := by
  obtain ⟨d, hreach, hd⟩ := initKernel_run hm hlabel hip
  exact ⟨d, hreach, hd.label.trans (if_pos rfl), hd.copied, hd.outside⟩

/-! ## A segment that is longer than its bytes -/

/-- Two segments next to each other with a null header between theirs. The first
has two bytes, of which one is in the file, and `0xcc` is in memory where the
other goes. The null header would have a byte copied over its own table. -/
def smallFile : ByteMem where
  byte a :=
    if a = 0x8001c then 52
    else if a = 0x8002a then 32
    else if a = 0x8002c then 3
    else if a = 0x80034 then 1
    else if a = 0x80038 then 148
    else if a = 0x8003e then 3
    else if a = 0x80044 then 1
    else if a = 0x80048 then 2
    else if a = 0x8005c then 0x34
    else if a = 0x8005e then 8
    else if a = 0x80064 then 1
    else if a = 0x80074 then 1
    else if a = 0x80078 then 149
    else if a = 0x8007c then 2
    else if a = 0x8007e then 3
    else if a = 0x80084 then 1
    else if a = 0x80088 then 1
    else if a = 0x80094 then 0x90
    else if a = 0x80095 then 0xc3
    else if a = 0x30001 then 0xcc
    else 0

def smallStart : Cpu where
  label := .InitKernel
  eax := 0
  ecx := 0
  esi := 0
  edi := 0
  ebp := 0
  esp := 0x91000
  mem := smallFile

theorem smallFile_header {i : Nat} (h : i < e_phnum smallFile)
    (hne : p_type smallFile i ≠ 0) : i = 0 ∨ i = 2 := by
  have hphnum : e_phnum smallFile = 3 := by decide
  have hnull : i ≠ 1 := by
    rintro rfl
    exact hne (by decide)
  omega

theorem smallFile_dest {i b : Nat} (hi : i < e_phnum smallFile)
    (h : Dest smallFile i b) :
    (i = 0 ∧ b = 0x30000) ∨ (i = 2 ∧ b = 0x30002) := by
  obtain ⟨hne, hlo, hhi⟩ := h
  rcases smallFile_header hi hne with rfl | rfl
  · have hvaddr : p_vaddr smallFile 0 = 0x30000 := by decide
    have hfilesz : p_filesz smallFile 0 = 1 := by decide
    omega
  · have hvaddr : p_vaddr smallFile 2 = 0x30002 := by decide
    have hfilesz : p_filesz smallFile 2 = 1 := by decide
    omega

theorem smallFile_loadable : Loadable smallFile 150 0x91000 where
  phentsize := by decide
  phnum := by decide
  header := by decide
  table := by decide
  file := by decide
  source i hi hne := by
    rcases smallFile_header hi hne with rfl | rfl
    · decide
    · decide
  dest i hi hne := by
    rcases smallFile_header hi hne with rfl | rfl
    · decide
    · decide
  dest_file i hi b h := by
    rw [InFile, BaseOfKernelFilePhyAddr]
    have hb := smallFile_dest hi h
    omega
  dest_stack i hi b h := by
    rw [OnStack]
    have hb := smallFile_dest hi h
    omega
  apart i hi j hj hne b h h' := by
    have hb := smallFile_dest hi h
    have hb' := smallFile_dest hj h'
    omega
  stack := by decide
  stack_file b h := by
    rw [OnStack] at h
    rw [InFile, BaseOfKernelFilePhyAddr]
    omega

theorem initKernel_copies_small : ∃ d,
    Reaches (Cpu.step 0x90800) smallStart d ∧ d.label = .ret ∧
      d.mem.byte 0x30000 = 0x90 ∧ d.mem.byte 0x30002 = 0xc3 := by
  obtain ⟨d, hreach, hlabel, hcopied, -⟩ := initKernel_copies
    (c := smallStart) smallFile_loadable rfl
    (show 0x90800 < 2 ^ 32 by decide)
  have hfirst := hcopied 0 (by decide) (by decide) 0 (by decide)
  have hlast := hcopied 2 (by decide) (by decide) 0 (by decide)
  exact ⟨d, hreach, hlabel, hfirst, hlast⟩

def PT_LOAD : Nat := 1

/-- Where the memory of a segment is. -/
def Segment (m : ByteMem) (i b : Nat) : Prop :=
  p_type m i = PT_LOAD ∧ p_vaddr m i ≤ b ∧ b < p_vaddr m i + p_memsz m i

structure SegmentsApart (m : ByteMem) (size esp : Nat) : Prop where
  file : ∀ i < e_phnum m, ∀ b, Segment m i b → ¬ InFile size b
  stack : ∀ i < e_phnum m, ∀ b, Segment m i b → ¬ OnStack esp b
  apart : ∀ i < e_phnum m, ∀ j < e_phnum m, i ≠ j →
    ∀ b, Segment m i b → ¬ Segment m j b

/-- The byte that is not in the file is not set to zero. -/
theorem initKernel_not_zeroed : ∃ c : Cpu, c.label = .InitKernel ∧
    Loadable c.mem 150 c.esp ∧ SegmentsApart c.mem 150 c.esp ∧
    ∃ d, Reaches (Cpu.step 0x90800) c d ∧ d.label = .ret ∧
      ∃ i < e_phnum c.mem, p_type c.mem i = PT_LOAD ∧
        ∃ k, p_filesz c.mem i ≤ k ∧ k < p_memsz c.mem i ∧
          d.mem.byte (p_vaddr c.mem i + k) ≠ 0 := by
  have hsegment {i b : Nat} (hi : i < e_phnum smallFile)
      (h : Segment smallFile i b) :
      (i = 0 ∧ 0x30000 ≤ b ∧ b < 0x30002) ∨ (i = 2 ∧ b = 0x30002) := by
    obtain ⟨htype, hlo, hhi⟩ := h
    rcases smallFile_header hi (by rw [htype]; decide) with rfl | rfl
    · have hvaddr : p_vaddr smallFile 0 = 0x30000 := by decide
      have hmemsz : p_memsz smallFile 0 = 2 := by decide
      omega
    · have hvaddr : p_vaddr smallFile 2 = 0x30002 := by decide
      have hmemsz : p_memsz smallFile 2 = 1 := by decide
      omega
  have hesp : smallStart.esp = 0x91000 := rfl
  refine ⟨smallStart, rfl, smallFile_loadable, ⟨?_, ?_, ?_⟩, ?_⟩
  · intro i hi b h
    have hb := hsegment hi h
    rw [InFile, BaseOfKernelFilePhyAddr]
    omega
  · intro i hi b h
    have hb := hsegment hi h
    rw [OnStack, hesp]
    omega
  · intro i hi j hj hne b h h'
    have hb := hsegment hi h
    have hb' := hsegment hj h'
    omega
  · obtain ⟨d, hreach, hd⟩ := initKernel_run (c := smallStart)
      smallFile_loadable rfl (show 0x90800 < 2 ^ 32 by decide)
    refine ⟨d, hreach, hd.label.trans (if_pos rfl), 0, by decide, by decide, 1,
      by decide, by decide, ?_⟩
    have hold : d.mem.byte 0x30001 = smallFile.byte 0x30001 := by
      refine hd.outside 0x30001 ?_
      rintro (hstack | ⟨i, hi, hdest⟩)
      · rw [OnStack, hesp] at hstack
        omega
      · have hb := smallFile_dest hi hdest
        omega
    have hvaddr : p_vaddr smallFile 0 = 0x30000 := by decide
    show d.mem.byte (p_vaddr smallFile 0 + 1) ≠ 0
    rw [hvaddr, hold]
    decide

end LearningLinux.Elf
