import LearningLinux.ContextSwitch.System

/-!
# What the entry and exit code does

Each lemma follows `kernel.asm` from one label to the next while interrupts
are off. `Entered` is what an interrupt leads to: the registers lie in a frame,
in the order `STACK_FRAME` has, and below the stack pointer of the handler is
the way out. The way out reads such a frame back.
-/

namespace LearningLinux.ContextSwitch

open LearningLinux.Lib

variable {cpu : Cpu} {m t : Machine} {r : Routine} {i : Nat} {irq : Fin 8}

/-! ## Single steps -/

theorem kernel_ring : (SELECTOR_KERNEL_CS &&& 3 != 0) = false := by decide

/-- `mov dx, ss` followed by `mov ds, dx`. -/
theorem Cpu.sel_low (cpu : Cpu) (w : BitVec 32) (s : BitVec 16) :
    cpu.sel (.word ((w &&& 0xFFFF0000) ||| s.setWidth 32)) = s := by
  simp only [Cpu.sel, Cpu.num]
  apply BitVec.eq_of_getLsbD_eq
  intro i hi
  simp [hi]

theorem push_eq {s : Addr} (hesp : m.ctx.esp = .addr s) (v : Val) :
    m.push v = some { m with
      ctx := { m.ctx with esp := .addr (s.add (-4)) }
      mem := Function.update m.mem (s.add (-4)) v } := by
  rw [Machine.push, hesp]

theorem popAll_one {s : Addr} (hesp : m.ctx.esp = .addr s)
    (f : Val → Context → Context) :
    m.popAll [f] = some { m with
      ctx := f (m.mem s) { m.ctx with esp := .addr (s.add 4) } } := by
  rw [Machine.popAll, Machine.pop, hesp]
  rfl

theorem callC_eq {s : Addr} (hesp : m.ctx.esp = .addr s) (kind : Handler)
    (pc : BitVec 32) :
    Cpu.callC m kind pc = some { m with
      ctx := { m.ctx with
        eip := .code (.c pc)
        esp := .addr (s.add (-4)) }
      mem := Function.update m.mem (s.add (-4)) m.ctx.eip
      calls := ⟨kind, s.add (-4), m.ctx.ebx, m.ctx.ebp, m.ctx.esi,
        m.ctx.edi⟩ :: m.calls } := by
  rw [Cpu.callC, push_eq hesp]
  simp [Machine.espAddr]

theorem movEaxreg_eq (cpu : Cpu) {f : Addr} (hds : m.ctx.ds = SELECTOR_KERNEL_DS)
    (hesi : m.ctx.esi = .addr f) :
    cpu.exec m .movEaxreg = some { m with
      mem := Function.update m.mem (f.add EAXREG) m.ctx.eax } := by
  rw [Cpu.exec, Machine.viaDs, if_pos hds, Machine.esiAddr, hesi]
  rfl

theorem viaDs_eq (hds : m.ctx.ds = SELECTOR_KERNEL_DS) (u : Option Machine) :
    m.viaDs u = u :=
  if_pos hds

theorem instr_of_asm {ins : Instr} (heip : m.ctx.eip = .code (.asm r i))
    (hins : r.code[i]? = some ins)
    (hexec : cpu.exec { m with
      ctx := { m.ctx with eip := .code (.asm r (i + 1)) } } ins = some t) :
    cpu.instr m = some t := by
  rw [Cpu.instr, heip]
  simp only [hins]
  exact hexec

theorem quietStep_of_asm {ins : Instr} (heip : m.ctx.eip = .code (.asm r i))
    (hcs : m.ctx.cs = SELECTOR_KERNEL_CS)
    (hintr : m.ctx.flags.intr = false) (hins : r.code[i]? = some ins)
    (hexec : cpu.exec { m with
      ctx := { m.ctx with eip := .code (.asm r (i + 1)) } } ins = some t) :
    cpu.quietStep m = some t := by
  have hquiet : Cpu.quiet m = true := by
    rw [Cpu.quiet, Context.inAsm, Context.user, hcs, kernel_ring, heip, hintr]
    rfl
  rw [Cpu.quietStep, if_pos hquiet]
  exact instr_of_asm heip hins hexec

theorem settle_of_after {P : Machine → Prop} {n fuel : Nat}
    (h : After cpu.quietStep n m P) (hP : ∀ t, P t → Cpu.quiet t = false)
    (hn : n < fuel) : ∃ t, cpu.settle fuel m = some t ∧ P t := by
  obtain ⟨t, ht, hp⟩ := h
  refine ⟨t, ?_, hp⟩
  induction n generalizing m fuel with
  | zero =>
      cases ht
      obtain ⟨fuel, rfl⟩ := Nat.exists_eq_add_of_lt hn
      rw [Cpu.settle, hP t hp]
      rfl
  | succ n ih =>
      obtain ⟨k, rfl⟩ := Nat.exists_eq_add_of_lt hn
      rw [Nat.add_comm, iter_add, Option.bind_eq_some_iff] at ht
      obtain ⟨u, hu, ht⟩ := ht
      rw [iter_one, Cpu.quietStep] at hu
      split at hu
      next hq =>
        rw [Cpu.settle, if_pos hq, hu]
        exact ih (by omega) ht
      next => cases hu

/-! ## `save` -/

/-- The segments the kernel runs with. -/
structure Context.Kernel (c : Context) : Prop where
  cs : c.cs = SELECTOR_KERNEL_CS
  ss : c.ss = SELECTOR_KERNEL_DS
  ds : c.ds = SELECTOR_KERNEL_DS

/-- The registers that `save` pushes. -/
def Context.saved (c : Context) : List Val :=
  [c.eax, c.ecx, c.edx, c.ebx, c.esp, c.ebp, c.esi, c.edi,
   .sel c.ds, .sel c.es, .sel c.fs, .sel c.gs]

/-- `save` has returned to its caller, with the stack pointer at `slot`. -/
structure Saved (m : Machine) (a slot : Addr) (cont : Code) (t : Machine) :
    Prop where
  kernel : t.ctx.Kernel
  intr : t.ctx.flags.intr = false
  eip : t.ctx.eip = m.mem a
  esp : t.ctx.esp = .addr slot
  esi : t.ctx.esi = .addr (a.down 12)
  mem : t.mem = Function.update (pushed m.mem a m.ctx.saved) slot (.code cont)
  k_reenter : t.k_reenter = m.k_reenter + 1
  esp0 : t.esp0 = m.esp0
  p_proc_ready : t.p_proc_ready = m.p_proc_ready
  calls : t.calls = m.calls
  history : t.history = m.history

/-- The part of `save` up to the test of `k_reenter`. -/
theorem save_upto_test {P : Machine → Prop} {n : Nat} {a : Addr}
    (heip : m.ctx.eip = .code (.asm .save 0))
    (hcs : m.ctx.cs = SELECTOR_KERNEL_CS)
    (hss : m.ctx.ss = SELECTOR_KERNEL_DS)
    (hesp : m.ctx.esp = .addr a) (hintr : m.ctx.flags.intr = false)
    (h : ∀ (c : Context) flags, c.Kernel → c.esp = .addr (a.down 12) →
      c.esi = .addr (a.down 12) → c.flags.intr = false →
      After cpu.quietStep n { m with
        ctx := { c with
          eip := .code (.asm .save 11)
          flags := ⟨false, m.k_reenter + 1 == 0, flags⟩ }
        mem := pushed m.mem a m.ctx.saved
        k_reenter := m.k_reenter + 1 } P) :
    After cpu.quietStep (n + 11) m P := by
  obtain ⟨⟨eax, ecx, edx, ebx, esp, ebp, esi, edi, cs, ss, ds, es, fs, gs, eip,
    ⟨intr, zero, others⟩⟩, mem, ldtr, esp0, k, ready, imr, calls, hist⟩ := m
  dsimp only at heip hcs hss hesp hintr
  subst heip hcs hss hesp hintr
  iterate 9
    refine After.next (quietStep_of_asm rfl rfl rfl rfl rfl) ?_
    dsimp only
  -- from here on memory is read through `ds`
  simp only [Cpu.sel_low]
  iterate 2
    refine After.next (quietStep_of_asm rfl rfl rfl rfl rfl) ?_
    dsimp only
  exact h ⟨eax, ecx, _, ebx, _, ebp, _, edi, _, _, _, _, fs, gs, .word 0,
    ⟨false, zero, others⟩⟩ _ ⟨rfl, rfl, rfl⟩ rfl rfl rfl

/-- `[esi + RETADR - P_STACKBASE]` is the return address of `save`. -/
theorem retadr_saved {mem : Addr → Val} {a slot : Addr} (vs : List Val)
    (v : Val) (hne : slot ≠ a) :
    Function.update (pushed mem a vs) slot v ((a.down 12).add RETADR) =
      mem a := by
  have ha : (a.down 12).add RETADR = a := by
    rw [Loc.down_eq, Loc.add_add]
    exact a.add_zero
  rw [ha, Function.update_of_ne hne.symm]
  exact pushed_of_not_below vs fun _ => le_refl a.off

/-- From a process, `save` changes to the kernel stack. -/
theorem save_outer (cpu : Cpu) {a : Addr} (heip : m.ctx.eip = .code (.asm .save 0))
    (hcs : m.ctx.cs = SELECTOR_KERNEL_CS)
    (hss : m.ctx.ss = SELECTOR_KERNEL_DS)
    (hesp : m.ctx.esp = .addr a) (hintr : m.ctx.flags.intr = false)
    (hk : m.k_reenter = -1) (hblock : a.block ≠ .stack) :
    After cpu.quietStep 15 m (Saved m a ⟨.stack, -4⟩ restart) := by
  have hzero : (m.k_reenter + 1 == 0) = true := by
    rw [hk]
    rfl
  have hne : (⟨.stack, -4⟩ : Addr) ≠ a := fun h => hblock (h ▸ rfl)
  refine save_upto_test heip hcs hss hesp hintr ?_
  rintro ⟨eax, ecx, edx, ebx, esp, ebp, esi, edi, cs, ss, ds, es, fs, gs, eip,
    flags⟩ others ⟨hcs, hss, hds⟩ hesp hesi -
  dsimp only at hcs hss hds hesp hesi
  subst hcs hss hds hesp hesi
  simp only [hzero]
  iterate 4
    refine After.next (quietStep_of_asm rfl rfl rfl rfl rfl) ?_
    dsimp only
  exact .done ⟨⟨rfl, rfl, rfl⟩, rfl, retadr_saved _ _ hne, rfl, rfl, rfl, rfl,
    rfl, rfl, rfl, rfl⟩

/-- From the kernel, `save` stays on the stack it is on. -/
theorem save_inner (cpu : Cpu) {a : Addr} (heip : m.ctx.eip = .code (.asm .save 0))
    (hcs : m.ctx.cs = SELECTOR_KERNEL_CS)
    (hss : m.ctx.ss = SELECTOR_KERNEL_DS)
    (hesp : m.ctx.esp = .addr a) (hintr : m.ctx.flags.intr = false)
    (hk : m.k_reenter ≠ -1) :
    After cpu.quietStep 14 m (Saved m a (a.down 13) restartReenter) := by
  have hzero : (m.k_reenter + 1 == 0) = false := by
    simp only [beq_eq_false_iff_ne]
    omega
  have hne : a.down 13 ≠ a := by
    intro h
    have hoff := congrArg Loc.off h
    rw [Loc.down_eq, Loc.add_off] at hoff
    omega
  refine save_upto_test heip hcs hss hesp hintr ?_
  rintro ⟨eax, ecx, edx, ebx, esp, ebp, esi, edi, cs, ss, ds, es, fs, gs, eip,
    flags⟩ others ⟨hcs, hss, hds⟩ hesp hesi -
  dsimp only at hcs hss hds hesp hesi
  subst hcs hss hds hesp hesi
  simp only [hzero]
  iterate 3
    refine After.next (quietStep_of_asm rfl rfl rfl rfl rfl) ?_
    dsimp only
  exact .done ⟨⟨rfl, rfl, rfl⟩, rfl, retadr_saved _ _ hne, rfl, rfl, rfl, rfl,
    rfl, rfl, rfl, rfl⟩

/-! ## From an interrupt to its handler -/

/-- The part of a frame that an interrupt and `save` always fill. -/
def Context.inner (c : Context) (kernel_esp retaddr : Val) : List Val :=
  [.sel c.gs, .sel c.fs, .sel c.es, .sel c.ds, c.edi, c.esi, c.ebp, kernel_esp,
   c.ebx, c.edx, c.ecx, c.eax, retaddr, c.eip, .sel c.cs, .flags c.flags]

/-- The part that only an interrupt from an outer ring fills. -/
def Context.outer (c : Context) : List Val :=
  if c.user then [c.esp, .sel c.ss] else []

/-- The frame at `f` has the registers of `c`. -/
def Holds (mem : Addr → Val) (f : Addr) (c : Context) : Prop :=
  ∃ kernel_esp retaddr, Words mem f (c.inner kernel_esp retaddr ++ c.outer)

/-- An interrupt found `m`, and its routine has come to line `i`. -/
structure Entered (m : Machine) (r : Routine) (i : Nat) (frame slot : Addr)
    (cont : Code) (t : Machine) : Prop where
  kernel : t.ctx.Kernel
  eip : t.ctx.eip = .code (.asm r i)
  esp : t.ctx.esp = .addr slot
  esi : t.ctx.esi = .addr frame
  holds : Holds t.mem frame m.ctx
  cont : t.mem slot = .code cont
  rest : ∀ l : Addr,
    (l.block = frame.block → frame.off + (64 + 4 * m.ctx.outer.length) ≤ l.off) →
    (l.block = slot.block → slot.off < l.off) → t.mem l = m.mem l
  k_reenter : t.k_reenter = m.k_reenter + 1
  esp0 : t.esp0 = m.esp0
  p_proc_ready : t.p_proc_ready = m.p_proc_ready
  calls : t.calls = m.calls
  history : t.history = m.history.enter m.ctx m.mem

/-- What the gate and the call of `save` push. -/
def Context.pushedBefore (c : Context) (ret : Code) : List Val :=
  c.outer.reverse ++ [.flags c.flags, .sel c.cs, c.eip, .code ret]

/-- The machine at the start of `save`, if the interrupt found the stack at
`a`. -/
def Machine.called (m : Machine) (r : Routine) (a : Addr) : Machine :=
  { m with
    ctx := { m.ctx with
      esp := .addr (a.down (4 + m.ctx.outer.length))
      cs := SELECTOR_KERNEL_CS, ss := SELECTOR_KERNEL_DS
      eip := .code (.asm .save 0)
      flags := { m.ctx.flags with intr := false } }
    mem := pushed m.mem a (m.ctx.pushedBefore (.asm r 1))
    history := m.history.enter m.ctx m.mem }

/-- The gate, and the instruction `call save` that every routine starts
with. -/
theorem gate_call (cpu : Cpu) {a : Addr}
    (hr : r.code[0]? = some (Instr.call (.asm .save 0)))
    (hstack : (if m.ctx.user then m.esp0 else m.ctx.esp) = .addr a)
    (hss : m.ctx.user = false → m.ctx.ss = SELECTOR_KERNEL_DS) :
    ∃ g, Cpu.gate m (.asm r 0) = some g ∧
      cpu.quietStep g = some (m.called r a) := by
  rw [Machine.called]
  cases huser : m.ctx.user with
  | true =>
      rw [if_pos huser] at hstack
      have houter : m.ctx.outer = [m.ctx.esp, .sel m.ctx.ss] := if_pos huser
      simp only [Cpu.gate, huser, if_true, hstack, Context.pushedBefore, houter]
      exact ⟨_, rfl, quietStep_of_asm rfl rfl rfl hr rfl⟩
  | false =>
      rw [if_neg (by simp [huser])] at hstack
      have houter : m.ctx.outer = [] := if_neg (by simp [huser])
      replace hss := hss huser
      obtain ⟨⟨eax, ecx, edx, ebx, esp, ebp, esi, edi, cs, ss, ds, es, fs, gs,
        eip, flags⟩, mem, ldtr, esp0, k, ready, imr, calls, hist⟩ := m
      dsimp only at hstack hss houter
      subst hstack hss
      simp only [Cpu.gate, huser, Context.pushedBefore, houter]
      exact ⟨_, rfl, quietStep_of_asm rfl rfl rfl hr rfl⟩

/-- What the gate and `save` have pushed is a frame. -/
theorem Saved.entered {a slot : Addr} {cont : Code}
    (h : Saved (m.called r a) (a.down (4 + m.ctx.outer.length)) slot cont t)
    (hslot : slot.block = a.block →
      slot.off < a.off - (64 + 4 * m.ctx.outer.length)) :
    Entered m r 1 (a.down (16 + m.ctx.outer.length)) slot cont t := by
  have hlen : (m.ctx.pushedBefore (.asm r 1)).length =
      4 + m.ctx.outer.length := by
    simp [Context.pushedBefore, Nat.add_comm]
  have hframe : (a.down (4 + m.ctx.outer.length)).down 12 =
      a.down (16 + m.ctx.outer.length) := by
    rw [Loc.down_down, Nat.add_right_comm]
  have hbefore := words_pushed (m.ctx.pushedBefore (.asm r 1))
    (show Words m.mem a [] from trivial)
  rw [hlen] at hbefore
  have hwords := words_pushed (m.called r a).ctx.saved hbefore
  have hrev : (m.ctx.pushedBefore (.asm r 1)).reverse =
      [.code (.asm r 1), m.ctx.eip, .sel m.ctx.cs, .flags m.ctx.flags] ++
        m.ctx.outer := by
    simp [Context.pushedBefore]
  rw [hrev, List.append_nil] at hbefore hwords
  have hholds : Holds t.mem (a.down (16 + m.ctx.outer.length)) m.ctx := by
    refine ⟨.addr (a.down (4 + m.ctx.outer.length)), .code (.asm r 1), ?_⟩
    rw [← hframe, h.mem]
    refine hwords.congr fun o hle _ => Function.update_of_ne ?_ _ _
    rintro rfl
    have hlt := hslot (by simp [Loc.down_eq])
    have hsaved : (m.called r a).ctx.saved.length = 12 := rfl
    simp only [Loc.down_eq, Loc.add_off, hsaved] at hle hlt
    omega
  have hrest : ∀ l : Addr, (l.block = a.block → a.off ≤ l.off) →
      (l.block = slot.block → slot.off < l.off) → t.mem l = m.mem l := by
    intro l ha hs
    have hne : l ≠ slot := fun heq => lt_irrefl _ (heq ▸ hs (heq ▸ rfl))
    rw [h.mem, Function.update_of_ne hne, pushed_of_not_below]
    · exact pushed_of_not_below _ ha
    · intro hb
      rw [Loc.down_eq, Loc.add_block] at hb
      have hle := ha hb
      rw [Loc.down_eq, Loc.add_off]
      omega
  refine ⟨h.kernel, h.eip.trans hbefore.1, h.esp, hframe ▸ h.esi, hholds, ?_,
    fun l hl => hrest l ?_, h.k_reenter, h.esp0, h.p_proc_ready, h.calls,
    h.history⟩
  · rw [h.mem, Function.update_self]
  · intro hb
    have hle := hl (by rw [hb, Loc.down_eq, Loc.add_block])
    rw [Loc.down_eq, Loc.add_off] at hle
    omega

theorem enters_outer (cpu : Cpu) {p : Fin NR_TASKS}
    (hr : r.code[0]? = some (Instr.call (.asm .save 0)))
    (huser : m.ctx.user = true)
    (hesp0 : m.esp0 = .addr ((procAddr p).add P_STACKTOP))
    (hk : m.k_reenter = -1) :
    ∃ g, Cpu.gate m (.asm r 0) = some g ∧
      After cpu.quietStep 16 g fun t => t.ctx.flags.intr = false ∧
        Entered m r 1 (procAddr p) ⟨.stack, -4⟩ restart t := by
  have houter : m.ctx.outer.length = 2 := by
    rw [Context.outer, if_pos huser]
    rfl
  obtain ⟨g, hg, hstep⟩ := gate_call cpu hr
    ((if_pos huser).trans hesp0) (by simp [huser])
  have hblock : (((procAddr p).add P_STACKTOP).down
      (4 + m.ctx.outer.length)).block ≠ .stack := by
    rw [Loc.down_eq, Loc.add_block]
    exact nofun
  have hsave := save_outer cpu (m := m.called r ((procAddr p).add P_STACKTOP))
    rfl rfl rfl rfl rfl hk hblock
  refine ⟨g, hg, After.next hstep (hsave.mono fun t h => ⟨h.intr, ?_⟩)⟩
  have he := h.entered nofun
  rw [houter] at he
  exact he

theorem enters_inner (cpu : Cpu) {a : Addr}
    (hr : r.code[0]? = some (Instr.call (.asm .save 0)))
    (hkernel : m.ctx.Kernel)
    (hesp : m.ctx.esp = .addr a) (hk : m.k_reenter ≠ -1) :
    ∃ g, Cpu.gate m (.asm r 0) = some g ∧
      After cpu.quietStep 15 g fun t => t.ctx.flags.intr = false ∧
        Entered m r 1 (a.add (-64)) (a.add (-68)) restartReenter t := by
  have huser : m.ctx.user = false := by
    rw [Context.user, hkernel.cs, kernel_ring]
  have houter : m.ctx.outer.length = 0 := by
    rw [Context.outer, if_neg (by simp [huser])]
    rfl
  have hstack : (if m.ctx.user then m.esp0 else m.ctx.esp) = .addr a := by
    rw [huser]
    exact hesp
  obtain ⟨g, hg, hstep⟩ := gate_call cpu hr hstack fun _ => hkernel.ss
  have hsave := save_inner cpu (m := m.called r a) rfl rfl rfl rfl rfl hk
  refine ⟨g, hg, After.next hstep (hsave.mono fun t h => ⟨h.intr, ?_⟩)⟩
  have hslot : (a.down (4 + m.ctx.outer.length)).down 13 = a.add (-68) := by
    rw [houter, Loc.down_down, Loc.down_eq]
    rfl
  have hframe : a.down (16 + m.ctx.outer.length) = a.add (-64) := by
    rw [houter, Loc.down_eq]
    rfl
  rw [hslot] at h
  have he := h.entered fun _ => by
    rw [houter, Loc.add_off]
    omega
  rw [hframe] at he
  exact he

section

variable {n : Machine} {frame slot : Addr} {cont : Code}

/-- The mask and the end of the interrupt, up to `sti`. -/
theorem hwint_head (cpu : Cpu) (h : Entered n (.hwint irq) 1 frame slot cont m)
    (hintr : m.ctx.flags.intr = false) :
    After cpu.quietStep 6 m fun t => t.ctx.flags.intr = true ∧
      Entered n (.hwint irq) 7 frame slot cont t := by
  obtain ⟨⟨hcs, hss, hds⟩, heip, hesp, hesi, hholds, hcont, hrest, hk, hesp0,
    hready, hcalls, hhist⟩ := h
  obtain ⟨⟨eax, ecx, edx, ebx, esp, ebp, esi, edi, cs, ss, ds, es, fs, gs, eip,
    ⟨intr, zero, others⟩⟩, mem, ldtr, esp0, k, ready, imr, calls, hist⟩ := m
  dsimp only at heip hcs hss hds hesp hesi hintr
  subst heip hcs hss hds hesp hesi hintr
  iterate 6
    refine After.next (quietStep_of_asm rfl rfl rfl rfl rfl) ?_
    dsimp only
  exact .done ⟨rfl, ⟨rfl, rfl, rfl⟩, rfl, rfl, rfl, hholds, hcont, hrest, hk,
    hesp0, hready, hcalls, hhist⟩

theorem sysCall_head (cpu : Cpu) (h : Entered n .sysCall 1 frame slot cont m)
    (hintr : m.ctx.flags.intr = false) :
    After cpu.quietStep 1 m fun t => t.ctx.flags.intr = true ∧
      Entered n .sysCall 2 frame slot cont t :=
  After.next (quietStep_of_asm h.eip h.kernel.cs hintr rfl rfl) <| .done
    ⟨rfl, ⟨h.kernel.cs, h.kernel.ss, h.kernel.ds⟩, rfl, h.esp, h.esi, h.holds,
      h.cont, h.rest, h.k_reenter, h.esp0, h.p_proc_ready, h.calls, h.history⟩

end

/-! ## The way out -/

/-- A routine has executed its `ret`, the stack pointer having been `s`. -/
structure Leaving (m : Machine) (s : Addr) (t : Machine) : Prop where
  kernel : t.ctx.Kernel
  intr : t.ctx.flags.intr = false
  eip : t.ctx.eip = m.mem s
  esp : t.ctx.esp = .addr (s.add 4)
  mem : t.mem = m.mem
  k_reenter : t.k_reenter = m.k_reenter
  esp0 : t.esp0 = m.esp0
  p_proc_ready : t.p_proc_ready = m.p_proc_ready
  calls : t.calls = m.calls
  history : t.history = m.history

theorem hwint_tail (cpu : Cpu) {s : Addr} (hkernel : m.ctx.Kernel)
    (heip : m.ctx.eip = .code (.asm (.hwint irq) 11))
    (hesp : m.ctx.esp = .addr s) (hintr : m.ctx.flags.intr = false) :
    After cpu.quietStep 4 m (Leaving m s) := by
  obtain ⟨hcs, hss, hds⟩ := hkernel
  obtain ⟨⟨eax, ecx, edx, ebx, esp, ebp, esi, edi, cs, ss, ds, es, fs, gs, eip,
    ⟨intr, zero, others⟩⟩, mem, ldtr, esp0, k, ready, imr, calls, hist⟩ := m
  dsimp only at heip hcs hss hds hesp hintr
  subst heip hcs hss hds hesp hintr
  iterate 4
    refine After.next (quietStep_of_asm rfl rfl rfl rfl rfl) ?_
    dsimp only
  exact .done ⟨⟨rfl, rfl, rfl⟩, rfl, rfl, rfl, rfl, rfl, rfl, rfl, rfl, rfl⟩

theorem sysCall_tail (cpu : Cpu) {s : Addr} (hkernel : m.ctx.Kernel)
    (heip : m.ctx.eip = .code (.asm .sysCall 5))
    (hesp : m.ctx.esp = .addr s) (hintr : m.ctx.flags.intr = false) :
    After cpu.quietStep 1 m (Leaving m s) := by
  obtain ⟨hcs, hss, hds⟩ := hkernel
  obtain ⟨⟨eax, ecx, edx, ebx, esp, ebp, esi, edi, cs, ss, ds, es, fs, gs, eip,
    ⟨intr, zero, others⟩⟩, mem, ldtr, esp0, k, ready, imr, calls, hist⟩ := m
  dsimp only at heip hcs hss hds hesp hintr
  subst heip hcs hss hds hesp hintr
  refine After.next (quietStep_of_asm rfl rfl rfl rfl rfl) ?_
  exact .done ⟨⟨rfl, rfl, rfl⟩, rfl, rfl, rfl, rfl, rfl, rfl, rfl, rfl, rfl⟩

theorem iretd_inner {a : Addr} {c : Context} (hesp : m.ctx.esp = .addr a)
    (h : Words m.mem a [c.eip, .sel c.cs, .flags c.flags])
    (hring : c.user = false) :
    cpu.iretd m = some { m with
      ctx := { m.ctx with
        eip := c.eip, cs := c.cs, flags := c.flags, esp := .addr (a.up 3) }
      history := m.history.leave false m.p_proc_ready } := by
  obtain ⟨heip, hcs, hflags, -⟩ := h
  rw [Context.user] at hring
  simp only [Cpu.iretd, Machine.pop, hesp, heip, hcs, hflags, Option.bind_some,
    bind, Cpu.sel_sel, Context.user, hring]
  rfl

theorem iretd_outer {a : Addr} {c : Context} (hesp : m.ctx.esp = .addr a)
    (h : Words m.mem a
      [c.eip, .sel c.cs, .flags c.flags, c.esp, .sel c.ss])
    (hring : c.user = true) :
    cpu.iretd m = some { m with
      ctx := { m.ctx with
        eip := c.eip, cs := c.cs, flags := c.flags, esp := c.esp, ss := c.ss }
      history := m.history.leave true m.p_proc_ready } := by
  obtain ⟨heip, hcs, hflags, hesp', hss, -⟩ := h
  rw [Context.user] at hring
  simp only [Cpu.iretd, Machine.pop, hesp, heip, hcs, hflags, hesp', hss,
    Option.bind_some, bind, Cpu.sel_sel, Context.user, hring]
  rfl

/-- `restart_reenter` reads the frame at `f` up to the part for `iretd`. -/
theorem restartReenter_upto_iretd (cpu : Cpu) {f : Addr} {c : Context}
    (hkernel : m.ctx.Kernel) (heip : m.ctx.eip = .code restartReenter)
    (hesp : m.ctx.esp = .addr f) (hintr : m.ctx.flags.intr = false)
    (hholds : Holds m.mem f c) :
    After cpu.quietStep 7 m fun t => ∃ zero others, t = { m with
      ctx := { c with
        esp := .addr (f.up 13)
        cs := SELECTOR_KERNEL_CS, ss := SELECTOR_KERNEL_DS
        eip := .code (.asm .restart 11)
        flags := ⟨false, zero, others⟩ }
      k_reenter := m.k_reenter - 1 } := by
  obtain ⟨kernel_esp, retaddr, hgs, hfs, hes, hds', hedi, hesi, hebp, -, hebx,
    hedx, hecx, heax, -⟩ := hholds
  obtain ⟨hcs, hss, hds⟩ := hkernel
  obtain ⟨⟨eax, ecx, edx, ebx, esp, ebp, esi, edi, cs, ss, ds, es, fs, gs, eip,
    ⟨intr, zero, others⟩⟩, mem, ldtr, esp0, k, ready, imr, calls, hist⟩ := m
  dsimp only at heip hcs hss hds hesp hintr
  dsimp only at hgs hfs hes hds' hedi hesi hebp hebx hedx hecx heax
  subst heip hcs hss hds hesp hintr
  iterate 7
    refine After.next (quietStep_of_asm rfl rfl rfl rfl rfl) ?_
    dsimp only
  simp only [hgs, hfs, hes, hds', hedi, hesi, hebp, hebx, hedx, hecx, heax,
    Cpu.sel_sel]
  exact .done ⟨_, _, rfl⟩

/-- What is left of a frame for `iretd`. -/
theorem Holds.tail {mem : Addr → Val} {f : Addr} {c : Context}
    (h : Holds mem f c) :
    Words mem (f.up 13) ([c.eip, .sel c.cs, .flags c.flags] ++ c.outer) := by
  obtain ⟨kernel_esp, retaddr, h⟩ := h
  exact h.2.2.2.2.2.2.2.2.2.2.2.2.2

theorem restartReenter_inner (cpu : Cpu) {f : Addr} {c : Context}
    (hkernel : m.ctx.Kernel) (heip : m.ctx.eip = .code restartReenter)
    (hesp : m.ctx.esp = .addr f) (hintr : m.ctx.flags.intr = false)
    (hholds : Holds m.mem f c) (hc : c.Kernel)
    (hcesp : c.esp = .addr (f.add 64)) :
    After cpu.quietStep 8 m fun t => t = { m with
      ctx := c
      k_reenter := m.k_reenter - 1
      history := m.history.leave false m.p_proc_ready } := by
  have hring : c.user = false := by
    rw [Context.user, hc.cs, kernel_ring]
  have htail := hholds.tail
  rw [Context.outer, if_neg (by simp [hring]), List.append_nil] at htail
  refine After.trans (n := 1)
    (restartReenter_upto_iretd cpu hkernel heip hesp hintr hholds) ?_
  rintro t ⟨zero, others, rfl⟩
  refine After.next (quietStep_of_asm rfl rfl rfl rfl
    (iretd_inner rfl htail hring)) (.done ?_)
  have hup : f.add 64 = (f.up 13).up 3 := by
    rw [Loc.up_eq, Loc.up_eq, Loc.add_add]
    rfl
  have hss := hc.ss
  rw [hup] at hcesp
  obtain ⟨eax, ecx, edx, ebx, esp, ebp, esi, edi, cs, ss, ds, es, fs, gs, eip,
    flags⟩ := c
  dsimp only at hcesp hss
  subst hcesp hss
  rfl

theorem restartReenter_outer (cpu : Cpu) {f : Addr} {c : Context}
    (hkernel : m.ctx.Kernel) (heip : m.ctx.eip = .code restartReenter)
    (hesp : m.ctx.esp = .addr f) (hintr : m.ctx.flags.intr = false)
    (hholds : Holds m.mem f c) (hring : c.user = true) :
    After cpu.quietStep 8 m fun t => t = { m with
      ctx := c
      k_reenter := m.k_reenter - 1
      history := m.history.leave true m.p_proc_ready } := by
  have htail := hholds.tail
  rw [Context.outer, if_pos hring] at htail
  refine After.trans (n := 1)
    (restartReenter_upto_iretd cpu hkernel heip hesp hintr hholds) ?_
  rintro t ⟨zero, others, rfl⟩
  exact After.next (quietStep_of_asm rfl rfl rfl rfl
    (iretd_outer rfl htail hring)) (.done rfl)

/-- `restart` as far as `restart_reenter`. -/
theorem restart_head (cpu : Cpu) (hkernel : m.ctx.Kernel)
    (heip : m.ctx.eip = .code restart) (hintr : m.ctx.flags.intr = false) :
    After cpu.quietStep 4 m fun t => t.ctx.Kernel ∧
      t.ctx.eip = .code restartReenter ∧
      t.ctx.esp = .addr (procAddr m.p_proc_ready) ∧
      t.ctx.flags.intr = false ∧
      ∃ c ldtr, t = { m with
        ctx := c
        ldtr := ldtr
        esp0 := .addr ((procAddr m.p_proc_ready).add P_STACKTOP) } := by
  obtain ⟨hcs, hss, hds⟩ := hkernel
  obtain ⟨⟨eax, ecx, edx, ebx, esp, ebp, esi, edi, cs, ss, ds, es, fs, gs, eip,
    ⟨intr, zero, others⟩⟩, mem, ldtr, esp0, k, ready, imr, calls, hist⟩ := m
  dsimp only at heip hcs hss hds hintr
  subst heip hcs hss hds hintr
  iterate 4
    refine After.next (quietStep_of_asm rfl rfl rfl rfl rfl) ?_
    dsimp only
  exact .done ⟨⟨rfl, rfl, rfl⟩, rfl, rfl, rfl, _, _, rfl⟩

/-- `restart` resumes the process that is ready. -/
theorem restart_resumes (cpu : Cpu) {c : Context} (hkernel : m.ctx.Kernel)
    (heip : m.ctx.eip = .code restart) (hintr : m.ctx.flags.intr = false)
    (hholds : Holds m.mem (procAddr m.p_proc_ready) c)
    (hring : c.user = true) :
    After cpu.quietStep 12 m fun t => ∃ ldtr, t = { m with
      ctx := c
      ldtr := ldtr
      esp0 := .addr ((procAddr m.p_proc_ready).add P_STACKTOP)
      k_reenter := m.k_reenter - 1
      history := m.history.leave true m.p_proc_ready } := by
  refine After.trans (n := 8) (restart_head cpu hkernel heip hintr) ?_
  rintro t ⟨hkernel, heip, hesp, hintr, c', ldtr, rfl⟩
  refine (restartReenter_outer cpu hkernel heip hesp hintr hholds hring).mono ?_
  rintro t rfl
  exact ⟨ldtr, rfl⟩

end LearningLinux.ContextSwitch
