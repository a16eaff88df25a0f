import LearningLinux.ContextSwitch.Machine
import LearningLinux.Lib.Threads

/-!
# Processes, interrupts and handlers

The kernel as a system whose steps are the ones that others can see between:
a process does something, an interrupt is accepted or a system call made, an
instruction of `kernel.asm` is executed with interrupts on, a C function does
something or returns. Whatever `kernel.asm` does with interrupts off belongs to
the step that leads to it.

A C function is anything that keeps to the calling convention: it may use all
registers and its own part of the kernel stack, turn interrupts off and on and
mask lines, and when it returns `ebx`, `ebp`, `esi`, `edi` and `esp` are what
they were. It makes another process ready only when `k_reenter` is zero, as
`clock_handler` does.
-/

namespace LearningLinux.ContextSwitch

open LearningLinux.Lib

inductive Action where
  /-- The process goes on to other registers. It runs with `IOPL = 1`, so it
  may also touch the interrupt flag and the mask. -/
  | user (c : Context) (imr : BitVec 8)
  | irq (irq : Fin 8)
  | sysCall
  | kernel
  | handler (c : Context) (stack : Int → Val) (imr : BitVec 8)
      (ready : Fin NR_TASKS)
  | leave (eax ecx edx : Val) (flags : Flags)

def Context.segs (c : Context) : List (BitVec 16) :=
  [c.cs, c.ss, c.ds, c.es, c.fs, c.gs]

/-- The stack pointer is on the kernel stack, not above `base`. -/
def Context.below (c : Context) (base : Addr) : Bool :=
  match c.esp with
  | .addr a => a.block == .stack && a.off ≤ base.off
  | _ => false

/-- The value of a system call is what its process will find in `eax`. -/
def History.returned (h : History) (kind : Handler) (eax : Val) : History :=
  match kind with
  | .irq => h
  | .sysCall => { h with
      last := Function.update h.last h.current
        { h.last h.current with eax := eax } }

namespace Activation

variable (a : Activation)

/-- What the C function `a` leaves behind of the memory. -/
def write (stack : Int → Val) (mem : Addr → Val) : Addr → Val :=
  fun l => if l.block = .stack ∧ a.Owns l.off then stack l.off else mem l

/-- The registers at the `ret` of the C function. -/
def finish (c : Context) (eax ecx edx : Val) (flags : Flags) : Context :=
  { c with
    eax := eax, ecx := ecx, edx := edx, ebx := a.ebx
    esp := .addr a.base, ebp := a.ebp, esi := a.esi, edi := a.edi
    flags := flags }

end Activation

namespace Cpu

variable (cpu : Cpu)

def step (m : Machine) : Action → Option Machine
  | .user c imr =>
      if m.ctx.user ∧ c.user then some { m with
        ctx := c
        imr := imr }
      else none
  | .irq irq =>
      if m.ctx.flags.intr ∧ ¬ m.imr.getLsbD irq then
        (gate m (.asm (.hwint irq) 0)).bind (cpu.settle fuel)
      else none
  | .sysCall =>
      if m.ctx.user then
        (gate m (.asm .sysCall 0)).bind (cpu.settle fuel)
      else none
  | .kernel =>
      if m.ctx.inAsm then (cpu.instr m).bind (cpu.settle fuel) else none
  | .handler c stack imr ready =>
      match m.calls with
      | [] => none
      | a :: _ =>
          if m.ctx.inC ∧ c.inC ∧ c.segs = m.ctx.segs ∧ c.below a.base ∧
              (ready = m.p_proc_ready ∨ m.k_reenter = 0) then some { m with
            ctx := c
            mem := a.write stack m.mem
            imr := imr
            p_proc_ready := ready }
          else none
  | .leave eax ecx edx flags =>
      match m.calls with
      | [] => none
      | a :: calls =>
          if m.ctx.inC then do
            let m ← cpu.exec { m with
              ctx := a.finish m.ctx eax ecx edx flags
              calls := calls
              history := m.history.returned a.kind eax } .ret
            cpu.settle fuel m
          else none

end Cpu

/-! ## The start -/

/-- `initial_eip` and the stack that `kernel_main` gives a task. -/
structure Task where
  initial_eip : BitVec 32
  stack : BitVec 32

def SELECTOR_LDT_FIRST : BitVec 16 := 0x28

/-- `((8 * i) & SA_RPL_MASK & SA_TI_MASK) | SA_TIL | RPL_TASK` -/
def taskSelector (i : BitVec 16) : BitVec 16 :=
  ((8 * i) &&& 0xFFFC &&& 0xFFFB) ||| 4 ||| 1

/-- `(SELECTOR_KERNEL_GS & SA_RPL_MASK) | RPL_TASK` -/
def taskGs : BitVec 16 := (0x1B &&& 0xFFFC) ||| 1

/-- `0x1202` -/
def taskFlags : Flags := ⟨true, false, 0x1002⟩

/-- The registers that `kernel_main` gives a task. The other ones start as
whatever the memory of `proc_table` holds. -/
def Task.context (t : Task) (mem : Int → Val) : Context where
  eax := mem EAXREG
  ecx := mem 40
  edx := mem 36
  ebx := mem 32
  esp := .word t.stack
  ebp := mem 24
  esi := mem 20
  edi := mem 16
  cs := taskSelector 0
  ss := taskSelector 1
  ds := taskSelector 1
  es := taskSelector 1
  fs := taskSelector 1
  gs := taskGs
  eip := .word t.initial_eip
  flags := taskFlags

/-- The fields of `proc_table[p]` that `kernel_main` writes, by offset. -/
def Task.fields (t : Task) (p : Fin NR_TASKS) : List (Int × Val) :=
  [(P_LDT_SEL, .sel (SELECTOR_LDT_FIRST + 8 * p.val)),
   (56, .sel (taskSelector 0)),
   (12, .sel (taskSelector 1)),
   (8, .sel (taskSelector 1)),
   (4, .sel (taskSelector 1)),
   (68, .sel (taskSelector 1)),
   (0, .sel taskGs),
   (52, .word t.initial_eip),
   (64, .word t.stack),
   (60, .flags taskFlags)]

def initialMem (tasks : Fin NR_TASKS → Task) (mem : Addr → Val) : Addr → Val
  | ⟨.proc p, o⟩ => (((tasks p).fields p).lookup o).getD (mem ⟨.proc p, o⟩)
  | l => mem l

/-- What `kernel_main` leaves to `restart`, on a machine that booted somehow.
It runs in ring 0 with interrupts off, and counts as an interrupt: `k_reenter`
is zero. -/
def kernelMain (m : Machine) (tasks : Fin NR_TASKS → Task) : Machine where
  ctx := { m.ctx with
    cs := SELECTOR_KERNEL_CS, ss := SELECTOR_KERNEL_DS
    ds := SELECTOR_KERNEL_DS, es := SELECTOR_KERNEL_DS
    eip := .code restart
    flags := { m.ctx.flags with intr := false } }
  mem := initialMem tasks m.mem
  ldtr := m.ldtr
  esp0 := m.esp0
  k_reenter := 0
  p_proc_ready := 0
  imr := m.imr
  calls := []
  history :=
    { interrupted := [⟨m.ctx, m.mem⟩]
      last := fun p => (tasks p).context fun o => m.mem ⟨.proc p, o⟩
      current := 0 }

def Cpu.boot (cpu : Cpu) (m : Machine) (tasks : Fin NR_TASKS → Task) :
    Option Machine :=
  cpu.settle fuel (kernelMain m tasks)

end LearningLinux.ContextSwitch
