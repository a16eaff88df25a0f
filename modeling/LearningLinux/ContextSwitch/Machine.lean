import LearningLinux.Lib.Iterate
import LearningLinux.Lib.WordStack
import Mathlib.Algebra.GroupWithZero.Nat

/-!
# The processor under `kernel.asm`

What the entry and exit code of the kernel in `oranges/code/io/cursor` runs
on: the registers, the entries of `proc_table` and the kernel stack, the part
of the task state segment that an interrupt reads, and the variables of the
kernel that the code touches.

Memory is made of blocks. Each process has one, which starts where its
`STACK_FRAME` does. The kernel stack is another, in which `StackTop` is offset
zero and which has no lower end. A word of memory may hold an address or a
place in the code, and `Cpu` has the number each of these is at run time.
Nothing depends on the numbers, but `mov dx, ss` and `in al, ...` overwrite a
part of a register that may hold any word.

`History` is kept for the statements and read by no instruction.
-/

namespace LearningLinux.ContextSwitch

open LearningLinux.Lib

abbrev NR_TASKS : Nat := 4

instance : NeZero NR_TASKS := ⟨by decide⟩

abbrev NR_SYS_CALL : Nat := 1

/-! ## Words -/

inductive Block where
  | proc (p : Fin NR_TASKS)
  | stack
deriving DecidableEq, Repr

abbrev Addr := Loc Block

def StackTop : Addr := ⟨.stack, 0⟩

/-- `&proc_table[p]` -/
def procAddr (p : Fin NR_TASKS) : Addr := ⟨.proc p, 0⟩

/-- `restart_reenter` is a label inside `restart`, as `.1` is inside `save`. -/
inductive Routine where
  | hwint (irq : Fin 8)
  | save
  | sysCall
  | restart
deriving DecidableEq, Repr

/-- An instruction of `kernel.asm`, by its routine and its number there, or a
place somewhere in the compiled C code. -/
inductive Code where
  | asm (r : Routine) (line : Nat)
  | c (pc : BitVec 32)
deriving DecidableEq, Repr

/-- `eflags`: the interrupt flag, the zero flag and the other bits. -/
structure Flags where
  intr : Bool
  zero : Bool
  others : BitVec 32
deriving DecidableEq, Repr

/-- What a word of memory or a register may hold. -/
inductive Val where
  | word (w : BitVec 32)
  | addr (a : Addr)
  | code (c : Code)
  | flags (f : Flags)
deriving DecidableEq, Repr

/-- What the model leaves open: where things are, what the arithmetic
instructions do to the flags that the code never tests, and the entries of the
two tables of C functions. -/
structure Cpu where
  addr : Addr → BitVec 32
  code : Code → BitVec 32
  flags : Flags → BitVec 32
  status : BitVec 32 → BitVec 32
  irq_table : Fin 8 → BitVec 32
  sys_call_table : Fin NR_SYS_CALL → BitVec 32

def Cpu.num (cpu : Cpu) : Val → BitVec 32
  | .word w => w
  | .addr a => cpu.addr a
  | .code c => cpu.code c
  | .flags f => cpu.flags f

/-- A segment register on the stack. -/
def Val.sel (s : BitVec 16) : Val := .word (s.setWidth 32)

def Cpu.sel (cpu : Cpu) (v : Val) : BitVec 16 := (cpu.num v).setWidth 16

@[simp] theorem Cpu.sel_sel (cpu : Cpu) (s : BitVec 16) :
    cpu.sel (.sel s) = s := by
  simp [Cpu.sel, Val.sel, Cpu.num]

/-! ## State -/

/-- The registers that make up what a process or the kernel is doing. -/
structure Context where
  eax : Val
  ecx : Val
  edx : Val
  ebx : Val
  esp : Val
  ebp : Val
  esi : Val
  edi : Val
  cs : BitVec 16
  ss : BitVec 16
  ds : BitVec 16
  es : BitVec 16
  fs : BitVec 16
  gs : BitVec 16
  eip : Val
  flags : Flags
deriving DecidableEq, Repr

def SELECTOR_KERNEL_CS : BitVec 16 := 0x08

def SELECTOR_KERNEL_DS : BitVec 16 := 0x10

/-- The processor is outside ring 0. -/
def Context.user (c : Context) : Bool := c.cs &&& 3 != 0

inductive Handler where
  | irq
  | sysCall
deriving DecidableEq, Repr

/-- A call of C code that has not returned: the address of its return address
and the registers it has to give back. -/
structure Activation where
  kind : Handler
  base : Addr
  ebx : Val
  ebp : Val
  esi : Val
  edi : Val
deriving DecidableEq

/-- The bytes of arguments that a C function was called with. They are its
own, and it may overwrite them. -/
def Activation.args (a : Activation) : Int :=
  match a.kind with
  | .irq => 4
  | .sysCall => 0

/-- The offsets of the kernel stack that a C function may write. -/
def Activation.Owns (a : Activation) (o : Int) : Prop :=
  o < a.base.off ∨ (a.base.off + 4 ≤ o ∧ o < a.base.off + 4 + a.args)

instance (a : Activation) (o : Int) : Decidable (a.Owns o) :=
  inferInstanceAs (Decidable (_ ∨ _))

/-- What an interrupt found. -/
structure Snapshot where
  ctx : Context
  mem : Addr → Val

/-- `interrupted` has what every interrupt found that has not returned yet,
the latest first. `last` has the registers of each process when it was last
interrupted; if a system call did it, `eax` is the value the call returned, as
soon as it has. `current` is the process that was resumed last. -/
structure History where
  interrupted : List Snapshot
  last : Fin NR_TASKS → Context
  current : Fin NR_TASKS

/-- `esp0` is the field of `tss`, and `imr` the mask register of the master
8259A. `k_reenter` counts without a bound, since the kernel stack has no room
for more than a few dozen interrupts. -/
structure Machine where
  ctx : Context
  mem : Addr → Val
  ldtr : BitVec 16
  esp0 : Val
  k_reenter : Int
  p_proc_ready : Fin NR_TASKS
  imr : BitVec 8
  calls : List Activation
  history : History

def Machine.depth (m : Machine) : Nat := m.history.interrupted.length

/-! ## Instructions -/

/-- The instructions of `kernel.asm`. The ones with a memory operand of their
own stand for that operand too: `inc dword [k_reenter]` is `incReenter`. -/
inductive Instr where
  | pushad
  | popad
  | pushDs
  | pushEs
  | pushFs
  | pushGs
  | popDs
  | popEs
  | popFs
  | popGs
  | popEcx
  | push (v : Val)
  /-- `mov dx, ss` -/
  | movDxSs
  | movDsDx
  | movEsDx
  | movEsiEsp
  /-- `mov esp, StackTop` -/
  | movEspTop
  | addEsp (d : Int)
  | incReenter
  | decReenter
  /-- `cmp dword [k_reenter], 0` -/
  | cmpReenter
  | jne (target : Code)
  /-- `jmp [esi + RETADR - P_STACKBASE]` -/
  | jmpRetadr
  | call (target : Code)
  /-- `call [irq_table + 4 * irq]` -/
  | callIrq (irq : Fin 8)
  /-- `call [sys_call_table + eax * 4]` -/
  | callSys
  /-- `mov [esi + EAXREG - P_STACKBASE], eax` -/
  | movEaxreg
  /-- `in al, INT_M_CTLMASK` -/
  | inMask
  | orAl (b : BitVec 8)
  | andAl (b : BitVec 8)
  | movAl (b : BitVec 8)
  /-- `out INT_M_CTLMASK, al` -/
  | outMask
  /-- `out INT_M_CTL, al` -/
  | outCtl
  | sti
  | cli
  | ret
  /-- `mov esp, [p_proc_ready]` -/
  | movEspReady
  /-- `lldt [esp + P_LDT_SEL]` -/
  | lldt
  /-- `lea eax, [esp + P_STACKTOP]` -/
  | leaEax
  /-- `mov dword [tss + TSS3_S_SP0], eax` -/
  | movSp0
  | iretd
deriving DecidableEq, Repr

def EAXREG : Int := 44

def RETADR : Int := 48

def P_STACKTOP : Int := 72

def P_LDT_SEL : Int := P_STACKTOP

def EOI : BitVec 8 := 0x20

namespace Machine

variable (m : Machine)

/-- Pushing needs a stack pointer into one of the blocks. -/
def push (v : Val) : Option Machine :=
  match m.ctx.esp with
  | .addr a => some { m with
      ctx := { m.ctx with esp := .addr (a.add (-4)) }
      mem := Function.update m.mem (a.add (-4)) v }
  | _ => none

def pushAll : Machine → List Val → Option Machine
  | m, [] => some m
  | m, v :: vs => do pushAll (← m.push v) vs

def pop : Option (Val × Machine) :=
  match m.ctx.esp with
  | .addr a => some (m.mem a, { m with
      ctx := { m.ctx with esp := .addr (a.add 4) } })
  | _ => none

/-- Pops into one register after the other. -/
def popAll : Machine → List (Val → Context → Context) → Option Machine
  | m, [] => some m
  | m, f :: fs => do
      let (v, m) ← m.pop
      popAll { m with ctx := f v m.ctx } fs

/-- An access through `ds`, which only the kernel's own selector allows. -/
def viaDs (r : Option Machine) : Option Machine :=
  if m.ctx.ds = SELECTOR_KERNEL_DS then r else none

/-- `[esi + d]` -/
def esiAddr (d : Int) : Option Addr :=
  match m.ctx.esi with
  | .addr a => some (a.add d)
  | _ => none

/-- `[esp + d]` -/
def espAddr (d : Int) : Option Addr :=
  match m.ctx.esp with
  | .addr a => some (a.add d)
  | _ => none

end Machine

/-- An interrupt is accepted. -/
def History.enter (h : History) (c : Context) (mem : Addr → Val) : History :=
  { h with
    interrupted := ⟨c, mem⟩ :: h.interrupted
    last := if c.user then Function.update h.last h.current c else h.last }

/-- The interrupt that returns is the latest one, and if it returns to a
process, this is the one `p_proc_ready` points to. -/
def History.leave (h : History) (user : Bool) (ready : Fin NR_TASKS) :
    History :=
  { h with
    interrupted := h.interrupted.tail
    current := if user then ready else h.current }

namespace Cpu

variable (cpu : Cpu) (m : Machine)

def al (c : Context) : BitVec 8 := (cpu.num c.eax).setWidth 8

def setAl (b : BitVec 8) : Val :=
  .word ((cpu.num m.ctx.eax &&& 0xFFFFFF00) ||| b.setWidth 32)

/-- An arithmetic instruction leaves its mark in `eflags`. -/
def arith (f : Flags) (zero : Bool) : Flags :=
  ⟨f.intr, zero, cpu.status f.others⟩

/-- A call of C code, which gets to own the stack below. -/
def callC (kind : Handler) (pc : BitVec 32) : Option Machine := do
  let m ← m.push m.ctx.eip
  let c := m.ctx
  let base ← m.espAddr 0
  return { m with
    ctx := { c with eip := .code (.c pc) }
    calls := ⟨kind, base, c.ebx, c.ebp, c.esi, c.edi⟩ :: m.calls }

/-- `iretd` takes a stack pointer off the stack only if it goes to an outer
ring. -/
def iretd : Option Machine := do
  let (eip, m) ← m.pop
  let (cs, m) ← m.pop
  let (.flags flags, m) ← m.pop | none
  let c := { m.ctx with eip := eip, cs := cpu.sel cs, flags := flags }
  let m := { m with
    ctx := c
    history := m.history.leave c.user m.p_proc_ready }
  if c.user then
    let (esp, m) ← m.pop
    let (ss, m) ← m.pop
    return { m with
      ctx := { m.ctx with esp := esp, ss := cpu.sel ss } }
  else
    return m

/-- One instruction, `eip` being past it already. -/
def exec (ins : Instr) : Option Machine :=
  let c := m.ctx
  match ins with
  | .pushad =>
      m.pushAll [c.eax, c.ecx, c.edx, c.ebx, c.esp, c.ebp, c.esi, c.edi]
  -- the word for `esp` is skipped
  | .popad => m.popAll
      [fun v c => { c with edi := v }, fun v c => { c with esi := v },
       fun v c => { c with ebp := v }, fun _ c => c,
       fun v c => { c with ebx := v }, fun v c => { c with edx := v },
       fun v c => { c with ecx := v }, fun v c => { c with eax := v }]
  | .pushDs => m.push (.sel c.ds)
  | .pushEs => m.push (.sel c.es)
  | .pushFs => m.push (.sel c.fs)
  | .pushGs => m.push (.sel c.gs)
  | .popDs => m.popAll [fun v c => { c with ds := cpu.sel v }]
  | .popEs => m.popAll [fun v c => { c with es := cpu.sel v }]
  | .popFs => m.popAll [fun v c => { c with fs := cpu.sel v }]
  | .popGs => m.popAll [fun v c => { c with gs := cpu.sel v }]
  | .popEcx => m.popAll [fun v c => { c with ecx := v }]
  | .push v => m.push v
  | .movDxSs => some { m with
      ctx := { c with
        edx := .word ((cpu.num c.edx &&& 0xFFFF0000) ||| c.ss.setWidth 32) } }
  | .movDsDx => some { m with
      ctx := { c with ds := cpu.sel c.edx } }
  | .movEsDx => some { m with
      ctx := { c with es := cpu.sel c.edx } }
  | .movEsiEsp => some { m with
      ctx := { c with esi := c.esp } }
  | .movEspTop => some { m with
      ctx := { c with esp := .addr StackTop } }
  | .addEsp d => do
      let a ← m.espAddr d
      return { m with
        ctx := { c with esp := .addr a, flags := cpu.arith c.flags false } }
  | .incReenter => m.viaDs <| some { m with
      ctx := { c with flags := cpu.arith c.flags (m.k_reenter + 1 == 0) }
      k_reenter := m.k_reenter + 1 }
  | .decReenter => m.viaDs <| some { m with
      ctx := { c with flags := cpu.arith c.flags (m.k_reenter - 1 == 0) }
      k_reenter := m.k_reenter - 1 }
  | .cmpReenter => m.viaDs <| some { m with
      ctx := { c with flags := cpu.arith c.flags (m.k_reenter == 0) } }
  | .jne target =>
      if c.flags.zero then some m
      else some { m with
        ctx := { c with eip := .code target } }
  | .jmpRetadr => m.viaDs do
      let a ← m.esiAddr RETADR
      return { m with
        ctx := { c with eip := m.mem a } }
  | .call target => do
      let m ← m.push c.eip
      return { m with
        ctx := { m.ctx with eip := .code target } }
  | .callIrq irq => m.viaDs (callC m .irq (cpu.irq_table irq))
  | .callSys => m.viaDs <|
      if h : (cpu.num c.eax).toNat < NR_SYS_CALL then
        callC m .sysCall (cpu.sys_call_table ⟨(cpu.num c.eax).toNat, h⟩)
      else none
  | .movEaxreg => m.viaDs do
      let a ← m.esiAddr EAXREG
      return { m with
        mem := Function.update m.mem a c.eax }
  | .inMask => some { m with
      ctx := { c with eax := cpu.setAl m m.imr } }
  | .orAl b => some { m with
      ctx := { c with
        eax := cpu.setAl m (cpu.al c ||| b)
        flags := cpu.arith c.flags (cpu.al c ||| b == 0) } }
  | .andAl b => some { m with
      ctx := { c with
        eax := cpu.setAl m (cpu.al c &&& b)
        flags := cpu.arith c.flags (cpu.al c &&& b == 0) } }
  | .movAl b => some { m with
      ctx := { c with eax := cpu.setAl m b } }
  | .outMask => some { m with
      imr := cpu.al c }
  -- the end of the interrupt for the 8259A, which then lets others through
  | .outCtl => some m
  -- a processor would wait for one more instruction before it takes interrupts
  | .sti => some { m with
      ctx := { c with flags := { c.flags with intr := true } } }
  | .cli => some { m with
      ctx := { c with flags := { c.flags with intr := false } } }
  | .ret => m.popAll [fun v c => { c with eip := v }]
  | .movEspReady => m.viaDs <| some { m with
      ctx := { c with esp := .addr (procAddr m.p_proc_ready) } }
  | .lldt => do
      let a ← m.espAddr P_LDT_SEL
      return { m with
        ldtr := cpu.sel (m.mem a) }
  | .leaEax => do
      let a ← m.espAddr P_STACKTOP
      return { m with
        ctx := { c with eax := .addr a } }
  | .movSp0 => m.viaDs <| some { m with
      esp0 := c.eax }
  | .iretd => iretd cpu m

end Cpu

/-! ## The code -/

def saveInner : Code := .asm .save 15

def restart : Code := .asm .restart 0

def restartReenter : Code := .asm .restart 4

def hwintMaster (irq : Fin 8) : List Instr :=
  [.call (.asm .save 0),
   .inMask,
   .orAl (1 <<< irq.val),
   .outMask,
   .movAl EOI,
   .outCtl,
   .sti,
   .push (.word irq.val),
   .callIrq irq,
   .popEcx,
   .cli,
   .inMask,
   .andAl (~~~ (1 <<< irq.val)),
   .outMask,
   .ret]

def save : List Instr :=
  [.pushad,
   .pushDs,
   .pushEs,
   .pushFs,
   .pushGs,
   .movDxSs,
   .movDsDx,
   .movEsDx,
   .movEsiEsp,
   .incReenter,
   .cmpReenter,
   .jne saveInner,
   .movEspTop,
   .push (.code restart),
   .jmpRetadr,
   -- .1
   .push (.code restartReenter),
   .jmpRetadr]

def sysCall : List Instr :=
  [.call (.asm .save 0),
   .sti,
   .callSys,
   .movEaxreg,
   .cli,
   .ret]

def restartCode : List Instr :=
  [.movEspReady,
   .lldt,
   .leaEax,
   .movSp0,
   -- restart_reenter
   .decReenter,
   .popGs,
   .popFs,
   .popEs,
   .popDs,
   .popad,
   .addEsp 4,
   .iretd]

def Routine.code : Routine → List Instr
  | .hwint irq => hwintMaster irq
  | .save => ContextSwitch.save
  | .sysCall => ContextSwitch.sysCall
  | .restart => restartCode

/-! ## Runs of the processor -/

def Context.inAsm (c : Context) : Bool :=
  !c.user &&
    match c.eip with
    | .code (.asm _ _) => true
    | _ => false

def Context.inC (c : Context) : Bool :=
  !c.user &&
    match c.eip with
    | .code (.c _) => true
    | _ => false

namespace Cpu

variable (cpu : Cpu) (m : Machine)

/-- Fetch the instruction at `eip` and execute it. -/
def instr : Option Machine :=
  match m.ctx.eip with
  | .code (.asm r i) => do
      let ins ← r.code[i]?
      cpu.exec { m with
        ctx := { m.ctx with eip := .code (.asm r (i + 1)) } } ins
  | _ => none

/-- The kernel is in `kernel.asm` with interrupts off, so nothing can get
between this instruction and the next one. -/
def quiet : Bool := m.ctx.inAsm && !m.ctx.flags.intr

def quietStep : Option Machine := if quiet m then cpu.instr m else none

/-- Go on to where something else may happen: the code of a process, C code,
or an instruction with interrupts on. -/
def settle : Nat → Machine → Option Machine
  | 0, _ => none
  | fuel + 1, m =>
      if quiet m then (cpu.instr m).bind (settle fuel) else some m

/-- No way through `kernel.asm` from one such place to the next is this
long. -/
def fuel : Nat := 64

/-- The gate of an interrupt: the processor changes to the stack in `tss` if
it comes from an outer ring, saves where it is and turns interrupts off. -/
def gate (entry : Code) : Option Machine := do
  let c := m.ctx
  let m := { m with
    history := m.history.enter c m.mem }
  let m ←
    if c.user then
      Machine.pushAll { m with
        ctx := { c with esp := m.esp0, ss := SELECTOR_KERNEL_DS } }
        [.sel c.ss, c.esp]
    else some m
  let m ← m.pushAll [.flags c.flags, .sel c.cs, c.eip]
  return { m with
    ctx := { m.ctx with
      cs := SELECTOR_KERNEL_CS, eip := .code entry
      flags := { c.flags with intr := false } } }

end Cpu

end LearningLinux.ContextSwitch
