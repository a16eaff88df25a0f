import LearningLinux.ContextSwitch.Nesting

/-!
# Every return restores what was interrupted

`Inv` holds whenever something may happen that is not the next instruction.
Every process that is not running has its registers in its frame, and either a
process runs or the contexts on the kernel stack form a chain. An interrupt
makes the chain longer by one, the end of a handler makes it shorter, and
everything else the kernel does happens at its head.
-/

namespace LearningLinux.ContextSwitch

open LearningLinux.Lib

variable {cpu : Cpu} {m t : Machine} {c : Context}

/-! ## The invariant -/

theorem Context.Kernel.not_user (h : c.Kernel) : c.user = false := by
  rw [Context.user, h.cs, kernel_ring]

theorem Context.inAsm_iff : c.inAsm = true ↔
    c.user = false ∧ ∃ r i, c.eip = .code (.asm r i) := by
  rw [Context.inAsm]
  split
  next r i heip => simp [heip]
  next h => simpa using fun _ r i heip => absurd heip (h r i)

theorem Context.inC_iff : c.inC = true ↔
    c.user = false ∧ ∃ pc, c.eip = .code (.c pc) := by
  rw [Context.inC]
  split
  next pc heip => simp [heip]
  next h => simpa using fun _ pc heip => absurd heip (h pc)

/-- Either a process runs, or the kernel does on behalf of one. -/
inductive Mode (m : Machine) : Prop where
  | user (ring : m.ctx.user = true) (found : m.history.interrupted = [])
      (calls : m.calls = [])
      (esp0 : m.esp0 = .addr ((procAddr m.history.current).add P_STACKTOP))
  | kernel (level : Level m.mem m.history.current
      (m.history.last m.history.current) m.ctx m.history.interrupted m.calls)

structure Inv (m : Machine) : Prop where
  depth : m.k_reenter = (m.depth : Int) - 1
  rings : ∀ p, (m.history.last p).user = true
  frames : ∀ p, p ≠ m.history.current →
    Holds m.mem (procAddr p) (m.history.last p)
  mode : Mode m

theorem Inv.level (h : Inv m) (hring : m.ctx.user = false) :
    Level m.mem m.history.current (m.history.last m.history.current) m.ctx
      m.history.interrupted m.calls := by
  cases h.mode with
  | user ring =>
      rw [hring] at ring
      cases ring
  | kernel level => exact level

/-- The kernel has done something at the head of the chain. -/
theorem Inv.of_level (h : Inv m) (hk : t.k_reenter = m.k_reenter)
    (hhist : t.history = m.history)
    (hproc : ∀ p o, p ≠ m.history.current →
      t.mem ⟨.proc p, o⟩ = m.mem ⟨.proc p, o⟩)
    (hlevel : Level t.mem m.history.current
      (m.history.last m.history.current) t.ctx m.history.interrupted t.calls) :
    Inv t := by
  refine ⟨?_, ?_, ?_, .kernel ?_⟩
  · rw [hk, Machine.depth, hhist]
    exact h.depth
  · rw [hhist]
    exact h.rings
  · rw [hhist]
    intro p hp
    exact (h.frames p hp).congr fun o _ => hproc p o hp
  · rw [hhist]
    exact hlevel

/-! ## Interrupts -/

/-- An interrupt takes a process, whose registers are now in its frame. -/
theorem Inv.enter_outer (h : Inv m) (hring : m.ctx.user = true) {r : Routine}
    {i : Nat} {k : Handler}
    (ht : Entered m r i (procAddr m.history.current) ⟨.stack, -4⟩ restart t)
    (hpoint : Point t.mem (procAddr m.history.current) ⟨.stack, -4⟩ m.ctx.eax k
      m.ctx.eax (.asm r i) t.ctx []) : Inv t ∧ t.depth = m.depth + 1 := by
  cases h.mode with
  | kernel level =>
      rw [level.kernel.not_user] at hring
      cases hring
  | user ring found calls esp0 =>
      have hlast : t.history.last =
          Function.update m.history.last m.history.current m.ctx := by
        rw [ht.history, History.enter, if_pos hring]
      have hcurrent : t.history.current = m.history.current := by
        rw [ht.history, History.enter]
      have hfound : t.history.interrupted = [⟨m.ctx, m.mem⟩] := by
        rw [ht.history, History.enter, found]
      have hdepth : t.depth = m.depth + 1 := by
        rw [Machine.depth, Machine.depth, hfound, found]
        rfl
      refine ⟨⟨?_, ?_, ?_, .kernel ?_⟩, hdepth⟩
      · rw [ht.k_reenter, h.depth, hdepth]
        omega
      · intro p
        rw [hlast]
        by_cases hp : p = m.history.current
        · rw [hp, Function.update_self, hring]
        · rw [Function.update_of_ne hp]
          exact h.rings p
      · intro p hp
        rw [hcurrent] at hp
        rw [hlast, Function.update_of_ne hp]
        refine (h.frames p hp).congr fun o _ => ht.rest _ ?_ nofun
        intro hblock
        cases hblock
        exact absurd rfl hp
      · rw [hcurrent, hlast, Function.update_self, hfound, ht.calls, calls]
        exact .first _ ht.kernel ht.eip ht.cont hpoint ht.holds

/-- An interrupt finds the kernel at work, and the chain gets longer. -/
theorem Inv.enter_inner (h : Inv m) (hring : m.ctx.user = false)
    (hintr : m.ctx.flags.intr = true) {a : Addr} (hesp : m.ctx.esp = .addr a)
    (hblock : a.block = .stack) {r : Routine} {i : Nat}
    (ht : Entered m r i (a.add (-64)) (a.add (-68)) restartReenter t)
    (hpoint : Point t.mem (a.add (-64)) (a.add (-68)) m.ctx.eax .irq m.ctx.eax
      (.asm r i) t.ctx []) : Inv t ∧ t.depth = m.depth + 1 := by
  have hhist : t.history = ⟨⟨m.ctx, m.mem⟩ :: m.history.interrupted,
      m.history.last, m.history.current⟩ := by
    rw [ht.history, History.enter, hring]
    rfl
  have hdepth : t.depth = m.depth + 1 := by
    rw [Machine.depth, Machine.depth, hhist]
    rfl
  have houter : m.ctx.outer.length = 0 := by
    rw [Context.outer, hring]
    rfl
  -- the frame and the way out are below the interrupted stack pointer
  have hsame : ∀ l : Addr, (l.block = .stack → a.off ≤ l.off) →
      t.mem l = m.mem l := by
    intro l hl
    refine ht.rest l ?_ ?_
    · intro hb
      have hle := hl (hb.trans hblock)
      rw [houter, Loc.add_off]
      omega
    · intro hb
      have hle := hl (hb.trans hblock)
      rw [Loc.add_off]
      omega
  refine ⟨⟨?_, ?_, ?_, .kernel ?_⟩, hdepth⟩
  · rw [ht.k_reenter, h.depth, hdepth]
    omega
  · rw [hhist]
    exact h.rings
  · rw [hhist]
    intro p hp
    exact (h.frames p hp).congr fun o _ => hsame _ fun hb => by cases hb
  · rw [hhist, ht.calls]
    refine .nested a m.ctx.eax ht.kernel ht.eip ((h.level hring).congr ?_ ?_)
      hintr hesp hblock ht.holds ht.cont hpoint ?_
    · intro a' l ha' _ hle
      rw [hesp] at ha'
      cases ha'
      exact hsame l fun _ => hle
    · exact fun o => hsame _ fun hb => by cases hb
    · exact fun l _ hle => hsame l fun _ => hle

theorem quiet_of_intr (h : m.ctx.flags.intr = true) : Cpu.quiet m = false := by
  rw [Cpu.quiet, h, Bool.not_true, Bool.and_false]

/-- The way from a gate to the first instruction with interrupts on. -/
theorem settle_gate {P : Machine → Prop} {entry : Code} {n : Nat}
    (h : ∃ g, Cpu.gate m entry = some g ∧ After cpu.quietStep n g fun t =>
      t.ctx.flags.intr = true ∧ P t) (hn : n < Cpu.fuel) :
    ∃ t, (Cpu.gate m entry).bind (cpu.settle Cpu.fuel) = some t ∧
      Cpu.quiet t = false ∧ P t := by
  obtain ⟨g, hg, hafter⟩ := h
  obtain ⟨t, ht, hintr, hP⟩ := settle_of_after hafter
    (fun t ht => quiet_of_intr ht.1) hn
  exact ⟨t, by rw [hg]; exact ht, quiet_of_intr hintr, hP⟩

theorem Inv.irq (cpu : Cpu) (h : Inv m) (hintr : m.ctx.flags.intr = true)
    (irq : Fin 8) :
    ∃ t, (Cpu.gate m (.asm (.hwint irq) 0)).bind (cpu.settle Cpu.fuel) =
        some t ∧
      Cpu.quiet t = false ∧ Inv t ∧ t.depth = m.depth + 1 := by
  cases hring : m.ctx.user with
  | true =>
      cases h.mode with
      | kernel level =>
          rw [level.kernel.not_user] at hring
          cases hring
      | user ring found calls esp0 =>
          have hk : m.k_reenter = -1 := by
            rw [h.depth, Machine.depth, found]
            rfl
          obtain ⟨g, hg, hafter⟩ :=
            enters_outer cpu (r := .hwint irq) rfl hring esp0 hk
          refine settle_gate ⟨g, hg, hafter.trans (n := 6) ?_⟩ (by decide)
          intro t ⟨hoff, ht⟩
          refine (hwint_head cpu ht hoff).mono ?_
          intro u ⟨hon, hu⟩
          exact ⟨hon, h.enter_outer hring hu (.push irq hu.esp hon)⟩
  | false =>
      obtain ⟨a, hesp, hblock⟩ := (h.level hring).esp
      have hk : m.k_reenter ≠ -1 := by
        have hne := (h.level hring).ne_nil
        have hpos := List.length_pos_of_ne_nil hne
        rw [h.depth, Machine.depth]
        omega
      obtain ⟨g, hg, hafter⟩ := enters_inner cpu (r := .hwint irq) rfl
        (h.level hring).kernel hesp hk
      refine settle_gate ⟨g, hg, hafter.trans (n := 6) ?_⟩ (by decide)
      intro t ⟨hoff, ht⟩
      refine (hwint_head cpu ht hoff).mono ?_
      intro u ⟨hon, hu⟩
      exact ⟨hon, h.enter_inner hring hintr hesp hblock hu
        (.push irq hu.esp hon)⟩

theorem Inv.sysCall (cpu : Cpu) (h : Inv m) (hring : m.ctx.user = true) :
    ∃ t, (Cpu.gate m (.asm .sysCall 0)).bind (cpu.settle Cpu.fuel) = some t ∧
      Cpu.quiet t = false ∧ Inv t ∧ t.depth = m.depth + 1 := by
  cases h.mode with
  | kernel level =>
      rw [level.kernel.not_user] at hring
      cases hring
  | user ring found calls esp0 =>
      have hk : m.k_reenter = -1 := by
        rw [h.depth, Machine.depth, found]
        rfl
      obtain ⟨g, hg, hafter⟩ :=
        enters_outer cpu (r := .sysCall) rfl hring esp0 hk
      refine settle_gate ⟨g, hg, hafter.trans (n := 1) ?_⟩ (by decide)
      intro t ⟨hoff, ht⟩
      refine (sysCall_head cpu ht hoff).mono ?_
      intro u ⟨hon, hu⟩
      exact ⟨hon, h.enter_outer hring hu (.callSys hu.esp hu.esi hon)⟩

/-! ## The way back -/

/-- The step from `s` to `t` is the return of the latest interrupt. If that
interrupt found the kernel at work, every register is what it was, and so is
the kernel stack from the stack pointer upwards. If it found a process, the one
that is ready goes on with the registers that it is to get back. -/
def Returns (s t : Machine) : Prop :=
  ∃ found rest, s.history.interrupted = found :: rest ∧
    t.history.interrupted = rest ∧
    (rest ≠ [] → t.ctx = found.ctx ∧ ∀ (a : Addr) (o : Int),
      found.ctx.esp = .addr a → a.off ≤ o →
        t.mem ⟨.stack, o⟩ = found.mem ⟨.stack, o⟩) ∧
    (rest = [] → t.history.current = t.p_proc_ready ∧
      t.ctx = t.history.last t.history.current)

theorem Returns.congr {s : Machine} (h : Returns m t)
    (hs : s.history.interrupted = m.history.interrupted) : Returns s t := by
  obtain ⟨found, rest, hm, h⟩ := h
  exact ⟨found, rest, hs.trans hm, h⟩

/-- The `ret` at the end of a handler. -/
theorem tail_leaves (cpu : Cpu) (hkernel : m.ctx.Kernel) {s : Addr}
    (hesp : m.ctx.esp = .addr s) (hintr : m.ctx.flags.intr = false)
    (htail : m.ctx.AtTail) :
    ∃ n ≤ 4, After cpu.quietStep n m (Leaving m s) := by
  obtain ⟨irq, heip⟩ | heip := htail
  · exact ⟨4, le_refl 4, hwint_tail cpu hkernel heip hesp hintr⟩
  · exact ⟨1, by omega, sysCall_tail cpu hkernel heip hesp hintr⟩

/-- The end of the handler that took a process: the process that is ready goes
on. -/
theorem Inv.exit_outer (cpu : Cpu) (h : Inv m) {found : Snapshot}
    (hfound : m.history.interrupted = [found]) (hcalls : m.calls = [])
    (hholds : Holds m.mem (procAddr m.history.current)
      (m.history.last m.history.current))
    (hkernel : t.ctx.Kernel) (heip : t.ctx.eip = .code restart)
    (hleave : Leaving m ⟨.stack, -4⟩ t) :
    After cpu.quietStep 12 t fun u =>
      Inv u ∧ Cpu.quiet u = false ∧ Returns m u := by
  have hall : ∀ p, Holds t.mem (procAddr p) (m.history.last p) := by
    intro p
    rw [hleave.mem]
    by_cases hp : p = m.history.current
    · rw [hp]
      exact hholds
    · exact h.frames p hp
  refine (restart_resumes cpu hkernel heip hleave.intr (hall _)
    (h.rings _)).mono ?_
  intro u ⟨ldtr, hu⟩
  have hhist : u.history = ⟨[], m.history.last, t.p_proc_ready⟩ := by
    rw [hu, hleave.history, History.leave, hfound]
    rfl
  have hring : u.ctx.user = true := by
    rw [hu]
    exact h.rings _
  refine ⟨⟨?_, ?_, ?_, .user hring ?_ ?_ ?_⟩, ?_, found, [], hfound, ?_, ?_, ?_⟩
  · rw [hu, hleave.k_reenter, h.depth, Machine.depth, Machine.depth, hfound,
      hleave.history, History.leave, hfound]
    rfl
  · rw [hhist]
    exact h.rings
  · intro p _
    rw [hhist, hu]
    exact hall p
  · rw [hhist]
  · rw [hu, hleave.calls, hcalls]
  · rw [hhist, hu]
  · rw [Cpu.quiet, Context.inAsm, hring]
    rfl
  · rw [hhist]
  · exact fun hne => absurd rfl hne
  · intro _
    rw [hhist, hu]
    exact ⟨rfl, rfl⟩

/-- The end of a nested handler: the one it interrupted goes on. -/
theorem Inv.exit_inner (cpu : Cpu) (h : Inv m) {found : Snapshot}
    {rest : List Snapshot} {a : Addr}
    (hfound : m.history.interrupted = found :: rest)
    (hlevel : Level m.mem m.history.current
      (m.history.last m.history.current) found.ctx rest m.calls)
    (hintr : found.ctx.flags.intr = true) (hesp : found.ctx.esp = .addr a)
    (hholds : Holds m.mem (a.add (-64)) found.ctx)
    (hsame : ∀ l : Addr, l.block = .stack → a.off ≤ l.off →
      m.mem l = found.mem l)
    (heip : t.ctx.eip = .code restartReenter)
    (hleave : Leaving m (a.add (-68)) t) :
    After cpu.quietStep 8 t fun u =>
      Inv u ∧ Cpu.quiet u = false ∧ Returns m u := by
  have htesp : t.ctx.esp = .addr (a.add (-64)) := by
    rw [hleave.esp, Loc.add_add]
    rfl
  have hcesp : found.ctx.esp = .addr ((a.add (-64)).add 64) := by
    rw [hesp, Loc.add_add]
    exact congrArg Val.addr a.add_zero.symm
  refine (restartReenter_inner cpu hleave.kernel heip htesp hleave.intr
    (hleave.mem ▸ hholds) hlevel.kernel hcesp).mono ?_
  intro u hu
  have hhist : u.history = ⟨rest, m.history.last, m.history.current⟩ := by
    rw [hu, hleave.history, History.leave, hfound]
    rfl
  have hmem : u.mem = m.mem := by
    rw [hu, hleave.mem]
  have hctx : u.ctx = found.ctx := by
    rw [hu]
  refine ⟨⟨?_, ?_, ?_, .kernel ?_⟩, ?_, found, rest, hfound, ?_, ?_, ?_⟩
  · have hk : u.k_reenter = m.k_reenter - 1 := by
      rw [hu, hleave.k_reenter]
    have hdepth : u.depth = rest.length := by
      rw [Machine.depth, hhist]
    rw [hk, h.depth, hdepth, Machine.depth, hfound, List.length_cons]
    omega
  · rw [hhist]
    exact h.rings
  · rw [hhist, hmem]
    exact h.frames
  · rw [hhist, hmem, hctx, hu, hleave.calls]
    exact hlevel
  · exact quiet_of_intr (hctx ▸ hintr)
  · rw [hhist]
  · intro _
    refine ⟨hctx, fun b o hb hle => ?_⟩
    rw [hesp] at hb
    cases hb
    rw [hmem]
    exact hsame ⟨.stack, o⟩ rfl hle
  · exact fun hnil => absurd hnil hlevel.ne_nil

theorem Inv.exit (cpu : Cpu) (h : Inv m) (hring : m.ctx.user = false)
    (htail : m.ctx.AtTail) :
    ∃ n ≤ 16, After cpu.quietStep n m fun t =>
      Inv t ∧ Cpu.quiet t = false ∧ Returns m t := by
  have hlevel := h.level hring
  generalize hfound : m.history.interrupted = found at hlevel
  generalize hcalls : m.calls = calls at hlevel
  cases hlevel with
  | first found kernel eip out point holds =>
      obtain ⟨hown, rfl, hesp, hintr⟩ := point.atTail eip htail
      obtain ⟨n, hn, hafter⟩ := tail_leaves cpu kernel hesp hintr htail
      refine ⟨n + 12, by omega, hafter.trans fun t ht => ?_⟩
      exact h.exit_outer cpu hfound (hcalls.trans hown) holds ht.kernel
        (ht.eip.trans out) ht
  | nested a v kernel eip below intr esp block holds out point same =>
      obtain ⟨hown, -, hesp, hintr⟩ := point.atTail eip htail
      obtain ⟨n, hn, hafter⟩ := tail_leaves cpu kernel hesp hintr htail
      rw [hown, List.nil_append] at hcalls
      refine ⟨n + 8, by omega, hafter.trans fun t ht => ?_⟩
      exact h.exit_inner cpu hfound (hcalls ▸ below) intr esp holds same
        (ht.eip.trans out) ht

/-! ## One instruction -/

/-- The lines after the call of the C function. -/
def Context.AtPop (c : Context) : Prop :=
  (∃ irq, c.eip = .code (.asm (.hwint irq) 9)) ∨
    c.eip = .code (.asm .sysCall 3)

/-- The lines with `cli`. -/
def Context.AtCli (c : Context) : Prop :=
  (∃ irq, c.eip = .code (.asm (.hwint irq) 10)) ∨
    c.eip = .code (.asm .sysCall 4)

theorem Inv.push (cpu : Cpu) (h : Inv m) (hring : m.ctx.user = false)
    {irq : Fin 8} (heip : m.ctx.eip = .code (.asm (.hwint irq) 7)) :
    ∃ t, cpu.instr m = some t ∧ Inv t ∧ t.history = m.history := by
  obtain ⟨s, hesp, hblock, hlevel⟩ := (h.level hring).push heip
  have hexec := push_eq (m := { m with
    ctx := { m.ctx with eip := .code (.asm (.hwint irq) 8) } }) hesp
    (.word irq.val)
  refine ⟨_, instr_of_asm heip rfl hexec, h.of_level rfl rfl ?_ (hlevel _), rfl⟩
  exact fun p o _ => update_stack m.mem (-4) _ hblock p o

theorem Inv.callIrq (cpu : Cpu) (h : Inv m) (hring : m.ctx.user = false)
    {irq : Fin 8} (heip : m.ctx.eip = .code (.asm (.hwint irq) 8)) :
    ∃ t, cpu.instr m = some t ∧ Inv t ∧ t.history = m.history := by
  obtain ⟨s, hesp, hblock, hlevel⟩ := (h.level hring).callIrq heip
  have hexec := callC_eq (m := { m with
    ctx := { m.ctx with eip := .code (.asm (.hwint irq) 9) } }) hesp .irq
    (cpu.irq_table irq)
  have hds := viaDs_eq (m := { m with
    ctx := { m.ctx with eip := .code (.asm (.hwint irq) 9) } })
    (h.level hring).kernel.ds
  refine ⟨_, instr_of_asm heip rfl ((hds _).trans hexec),
    h.of_level rfl rfl ?_ (hlevel _), rfl⟩
  exact fun p o _ => update_stack m.mem (-4) _ hblock p o

theorem Inv.callSys (cpu : Cpu) (h : Inv m) (hring : m.ctx.user = false)
    (heip : m.ctx.eip = .code (.asm .sysCall 2))
    (heax : (cpu.num m.ctx.eax).toNat < NR_SYS_CALL) :
    ∃ t, cpu.instr m = some t ∧ Inv t ∧ t.history = m.history := by
  obtain ⟨s, hesp, hblock, hlevel⟩ := (h.level hring).callSys heip
  have hexec := callC_eq (m := { m with
    ctx := { m.ctx with eip := .code (.asm .sysCall 3) } }) hesp .sysCall
    (cpu.sys_call_table ⟨(cpu.num m.ctx.eax).toNat, heax⟩)
  have hds := viaDs_eq (m := { m with
    ctx := { m.ctx with eip := .code (.asm .sysCall 3) } })
    (h.level hring).kernel.ds
  refine ⟨_, instr_of_asm heip rfl ((hds _).trans ((dif_pos heax).trans hexec)),
    h.of_level rfl rfl ?_ (hlevel _), rfl⟩
  exact fun p o _ => update_stack m.mem (-4) _ hblock p o

theorem Inv.pop (cpu : Cpu) (h : Inv m) (hring : m.ctx.user = false)
    (hpop : m.ctx.AtPop) :
    ∃ t, cpu.instr m = some t ∧ Inv t ∧ t.history = m.history ∧
      t.ctx.user = false ∧ t.ctx.AtCli ∧ t.ctx.flags = m.ctx.flags := by
  obtain ⟨irq, heip⟩ | heip := hpop
  · obtain ⟨s, hesp, hlevel⟩ := (h.level hring).popEcx heip
    have hexec := popAll_one (m := { m with
      ctx := { m.ctx with eip := .code (.asm (.hwint irq) 10) } }) hesp
      fun v c => { c with ecx := v }
    exact ⟨_, instr_of_asm heip rfl hexec, h.of_level rfl rfl
      (fun p o _ => rfl) (hlevel (m.mem s)), rfl, hring, .inl ⟨irq, rfl⟩, rfl⟩
  · obtain ⟨hesi, hlevel⟩ := (h.level hring).store heip
    have hexec := movEaxreg_eq cpu (m := { m with
      ctx := { m.ctx with eip := .code (.asm .sysCall 4) } })
      (h.level hring).kernel.ds hesi
    refine ⟨_, instr_of_asm heip rfl hexec, h.of_level rfl rfl ?_ hlevel, rfl,
      hring, .inr rfl, rfl⟩
    intro p o hp
    refine Function.update_of_ne ?_ _ m.mem
    intro heq
    cases congrArg Loc.block heq
    exact hp rfl

theorem Inv.cli (cpu : Cpu) (h : Inv m) (hring : m.ctx.user = false)
    (hcli : m.ctx.AtCli) :
    ∃ t, cpu.instr m = some t ∧ Inv t ∧ t.history = m.history ∧
      t.ctx.user = false ∧ t.ctx.AtTail ∧ t.ctx.flags.intr = false := by
  obtain ⟨irq, heip⟩ | heip := hcli
  · exact ⟨_, instr_of_asm heip rfl rfl, h.of_level rfl rfl (fun p o _ => rfl)
      ((h.level hring).cli heip (.inl ⟨irq, rfl, rfl⟩)), rfl, hring,
      .inl ⟨irq, rfl⟩, rfl⟩
  · exact ⟨_, instr_of_asm heip rfl rfl, h.of_level rfl rfl (fun p o _ => rfl)
      ((h.level hring).cli heip (.inr ⟨rfl, rfl⟩)), rfl, hring, .inr rfl, rfl⟩

/-! ## Up to where something else may happen -/

theorem quiet_iff : Cpu.quiet m = true ↔
    m.ctx.inAsm = true ∧ m.ctx.flags.intr = false := by
  simp [Cpu.quiet]

theorem quietStep_of_instr (hasm : m.ctx.inAsm = true)
    (hintr : m.ctx.flags.intr = false) (h : cpu.instr m = some t) :
    cpu.quietStep m = some t := by
  rw [Cpu.quietStep, if_pos (quiet_iff.mpr ⟨hasm, hintr⟩), h]

theorem Context.AtCli.inAsm (h : c.AtCli) (hring : c.user = false) :
    c.inAsm = true := by
  obtain ⟨irq, heip⟩ | heip := h
  · exact Context.inAsm_iff.mpr ⟨hring, _, _, heip⟩
  · exact Context.inAsm_iff.mpr ⟨hring, _, _, heip⟩

theorem Context.AtPop.inAsm (h : c.AtPop) (hring : c.user = false) :
    c.inAsm = true := by
  obtain ⟨irq, heip⟩ | heip := h
  · exact Context.inAsm_iff.mpr ⟨hring, _, _, heip⟩
  · exact Context.inAsm_iff.mpr ⟨hring, _, _, heip⟩

theorem Inv.exit_cli (cpu : Cpu) (h : Inv m) (hring : m.ctx.user = false)
    (hintr : m.ctx.flags.intr = false) (hcli : m.ctx.AtCli) :
    ∃ n ≤ 17, After cpu.quietStep n m fun t =>
      Inv t ∧ Cpu.quiet t = false ∧ Returns m t := by
  obtain ⟨t, hstep, ht, hhist, hring', htail, -⟩ := h.cli cpu hring hcli
  obtain ⟨n, hn, hafter⟩ := ht.exit cpu hring' htail
  refine ⟨n + 1, by omega, After.next
    (quietStep_of_instr (hcli.inAsm hring) hintr hstep) (hafter.mono ?_)⟩
  intro u ⟨hu, hquiet, hreturns⟩
  exact ⟨hu, hquiet, hreturns.congr (by rw [hhist])⟩

theorem Inv.exit_pop (cpu : Cpu) (h : Inv m) (hring : m.ctx.user = false)
    (hintr : m.ctx.flags.intr = false) (hpop : m.ctx.AtPop) :
    ∃ n ≤ 18, After cpu.quietStep n m fun t =>
      Inv t ∧ Cpu.quiet t = false ∧ Returns m t := by
  obtain ⟨t, hstep, ht, hhist, hring', hcli, hflags⟩ := h.pop cpu hring hpop
  obtain ⟨n, hn, hafter⟩ := ht.exit_cli cpu hring' (hflags ▸ hintr) hcli
  refine ⟨n + 1, by omega, After.next
    (quietStep_of_instr (hpop.inAsm hring) hintr hstep) (hafter.mono ?_)⟩
  intro u ⟨hu, hquiet, hreturns⟩
  exact ⟨hu, hquiet, hreturns.congr (by rw [hhist])⟩

/-- With interrupts off, the kernel is at the end of a handler. -/
theorem Inv.exit_quiet (cpu : Cpu) (h : Inv m) (hquiet : Cpu.quiet m = true) :
    ∃ n ≤ 18, After cpu.quietStep n m fun t =>
      Inv t ∧ Cpu.quiet t = false ∧ Returns m t := by
  obtain ⟨hasm, hintr⟩ := quiet_iff.mp hquiet
  obtain ⟨hring, r, i, heip⟩ := Context.inAsm_iff.mp hasm
  obtain ⟨frame, slot, v, k, e, own, rest, -, -, point, -⟩ :=
    (h.level hring).move heip
  cases point with
  | push _ _ on | callIrq _ _ on | callSys _ _ on =>
      rw [hintr] at on
      cases on
  | popEcx irq => exact h.exit_pop cpu hring hintr (.inl ⟨irq, heip⟩)
  | movEaxreg => exact h.exit_pop cpu hring hintr (.inr heip)
  | cli irq =>
      obtain ⟨n, hn, hafter⟩ := h.exit_cli cpu hring hintr (.inl ⟨irq, heip⟩)
      exact ⟨n, by omega, hafter⟩
  | cliSys =>
      obtain ⟨n, hn, hafter⟩ := h.exit_cli cpu hring hintr (.inr heip)
      exact ⟨n, by omega, hafter⟩
  | tail irq =>
      obtain ⟨n, hn, hafter⟩ := h.exit cpu hring (.inl ⟨irq, heip⟩)
      exact ⟨n, by omega, hafter⟩
  | tailSys =>
      obtain ⟨n, hn, hafter⟩ := h.exit cpu hring (.inr heip)
      exact ⟨n, by omega, hafter⟩

theorem Inv.settle (cpu : Cpu) (h : Inv m) :
    ∃ t, cpu.settle Cpu.fuel m = some t ∧ Inv t ∧ Cpu.quiet t = false ∧
      (t = m ∨ Returns m t) := by
  cases hquiet : Cpu.quiet m with
  | false =>
      refine ⟨m, ?_, h, hquiet, .inl rfl⟩
      rw [Cpu.fuel, Cpu.settle, hquiet]
      rfl
  | true =>
      obtain ⟨n, hn, hafter⟩ := h.exit_quiet cpu hquiet
      have hlt : n < Cpu.fuel := lt_of_le_of_lt hn (by decide)
      obtain ⟨t, ht, hinv, hquiet', hreturns⟩ :=
        settle_of_after hafter (fun t ht => ht.2.1) hlt
      exact ⟨t, ht, hinv, hquiet', .inr hreturns⟩

/-! ## Every step -/

/-- A number outside `sys_call_table` leads nowhere that the model knows. -/
theorem Inv.number_of_instr (h : Inv m) (hring : m.ctx.user = false)
    (heip : m.ctx.eip = .code (.asm .sysCall 2))
    (hstep : cpu.instr m = some t) :
    (cpu.num m.ctx.eax).toNat < NR_SYS_CALL := by
  by_contra heax
  have hds := viaDs_eq (m := { m with
    ctx := { m.ctx with eip := .code (.asm .sysCall 3) } })
    (h.level hring).kernel.ds
  have hnone : cpu.instr m = none := by
    rw [Cpu.instr, heip]
    exact (hds _).trans (dif_neg heax)
  rw [hnone] at hstep
  cases hstep

theorem Inv.instr (cpu : Cpu) (h : Inv m) (hasm : m.ctx.inAsm = true)
    (hintr : m.ctx.flags.intr = true)
    (hnumber : m.ctx.eip = .code (.asm .sysCall 2) →
      (cpu.num m.ctx.eax).toNat < NR_SYS_CALL) :
    ∃ t, cpu.instr m = some t ∧ Inv t ∧ t.history = m.history := by
  obtain ⟨hring, r, i, heip⟩ := Context.inAsm_iff.mp hasm
  obtain ⟨frame, slot, v, k, e, own, rest, -, -, point, -⟩ :=
    (h.level hring).move heip
  cases point with
  | push irq => exact h.push cpu hring heip
  | callIrq irq => exact h.callIrq cpu hring heip
  | callSys => exact h.callSys cpu hring heip (hnumber heip)
  | popEcx irq =>
      obtain ⟨t, ht, hinv, hhist, -⟩ := h.pop cpu hring (.inl ⟨irq, heip⟩)
      exact ⟨t, ht, hinv, hhist⟩
  | movEaxreg =>
      obtain ⟨t, ht, hinv, hhist, -⟩ := h.pop cpu hring (.inr heip)
      exact ⟨t, ht, hinv, hhist⟩
  | cli irq =>
      obtain ⟨t, ht, hinv, hhist, -⟩ := h.cli cpu hring (.inl ⟨irq, heip⟩)
      exact ⟨t, ht, hinv, hhist⟩
  | cliSys =>
      obtain ⟨t, ht, hinv, hhist, -⟩ := h.cli cpu hring (.inr heip)
      exact ⟨t, ht, hinv, hhist⟩
  | tail _ _ off | tailSys _ off =>
      rw [hintr] at off
      cases off

/-- A C function keeps to its part of the stack. -/
theorem Inv.handler (h : Inv m) (hC : m.ctx.inC = true) {a : Activation}
    {calls : List Activation} (hcalls : m.calls = a :: calls)
    (hC' : c.inC = true) (hsegs : c.segs = m.ctx.segs)
    (hbelow : c.below a.base = true) (stack : Int → Val) (imr : BitVec 8)
    (ready : Fin NR_TASKS) : Inv { m with
      ctx := c
      mem := a.write stack m.mem
      imr := imr
      p_proc_ready := ready } := by
  obtain ⟨hring, pc, heip⟩ := Context.inC_iff.mp hC
  obtain ⟨-, pc', heip'⟩ := Context.inC_iff.mp hC'
  obtain ⟨b, rest, hb, hlevel⟩ := (h.level hring).handler heip
  cases hcalls.symm.trans hb
  have hkernel : c.Kernel := by
    obtain ⟨hcs, hss, hds⟩ := (h.level hring).kernel
    simp only [Context.segs, List.cons.injEq] at hsegs
    obtain ⟨hcs', hss', hds', -⟩ := hsegs
    exact ⟨hcs'.trans hcs, hss'.trans hss, hds'.trans hds⟩
  exact h.of_level rfl rfl (fun p o _ => a.write_proc stack m.mem p o)
    (hlevel stack c pc' hkernel heip' hbelow)

/-- A C function returns, and the value of a system call is noted. -/
theorem Inv.leave (cpu : Cpu) (h : Inv m) (hC : m.ctx.inC = true)
    {a : Activation} {calls : List Activation} (hcalls : m.calls = a :: calls)
    (eax ecx edx : Val) (flags : Flags) :
    ∃ t, cpu.exec { m with
        ctx := a.finish m.ctx eax ecx edx flags
        calls := calls
        history := m.history.returned a.kind eax } .ret = some t ∧
      Inv t ∧ t.history.interrupted = m.history.interrupted := by
  obtain ⟨hring, pc, heip⟩ := Context.inC_iff.mp hC
  have hlevel := h.level hring
  obtain ⟨hcs, hss, hds⟩ := hlevel.kernel
  rw [hcalls] at hlevel
  have hexec := popAll_one (m := { m with
    ctx := a.finish m.ctx eax ecx edx flags
    calls := calls
    history := m.history.returned a.kind eax }) (s := a.base) rfl
    fun v c => { c with eip := v }
  refine ⟨_, hexec, ?_⟩
  cases hkind : a.kind with
  | irq =>
      obtain ⟨irq, hret, hlevel⟩ := hlevel.leaveIrq heip hkind
      rw [History.returned]
      exact ⟨h.of_level rfl rfl (fun p o _ => rfl)
        (hlevel _ ⟨hcs, hss, hds⟩ hret rfl), rfl⟩
  | sysCall =>
      obtain ⟨hret, hlevel⟩ := hlevel.leaveSys heip hkind
      rw [History.returned]
      refine ⟨⟨h.depth, ?_, ?_, .kernel ?_⟩, rfl⟩
      · intro p
        dsimp only
        by_cases hp : p = m.history.current
        · rw [hp, Function.update_self]
          exact h.rings m.history.current
        · rw [Function.update_of_ne hp]
          exact h.rings p
      · intro p hp
        dsimp only at hp ⊢
        rw [Function.update_of_ne hp]
        exact h.frames p hp
      · dsimp only
        rw [Function.update_self]
        exact hlevel { a.finish m.ctx eax ecx edx flags with
          esp := .addr (a.base.add 4)
          eip := m.mem a.base } ⟨hcs, hss, hds⟩ hret rfl rfl

theorem Inv.user (h : Inv m) (hring : m.ctx.user = true)
    (hc : c.user = true) (imr : BitVec 8) : Inv { m with
      ctx := c
      imr := imr } := by
  cases h.mode with
  | kernel level =>
      rw [level.kernel.not_user] at hring
      cases hring
  | user ring found calls esp0 =>
      exact ⟨h.depth, h.rings, h.frames, .user hc found calls esp0⟩

theorem quiet_of_user (h : m.ctx.user = true) : Cpu.quiet m = false := by
  rw [Cpu.quiet, Context.inAsm, h]
  rfl

theorem quiet_of_inC (h : m.ctx.inC = true) : Cpu.quiet m = false := by
  obtain ⟨hring, pc, heip⟩ := Context.inC_iff.mp h
  rw [Cpu.quiet, Context.inAsm, heip, Bool.and_false, Bool.false_and]

theorem intr_of_inAsm (hquiet : Cpu.quiet m = false)
    (hasm : m.ctx.inAsm = true) : m.ctx.flags.intr = true := by
  rw [Cpu.quiet, hasm] at hquiet
  simpa using hquiet

/-- What is known of a state after a step from `m`. -/
structure Stepped (m t : Machine) : Prop where
  inv : Inv t
  quiet : Cpu.quiet t = false
  returns : t.depth < m.depth → Returns m t

theorem Stepped.of_settle {u : Machine} (hu : Inv u)
    (hsame : u.history.interrupted = m.history.interrupted)
    (hstep : cpu.settle Cpu.fuel u = some t) : Stepped m t := by
  obtain ⟨t', ht', hinv, hquiet, hreturns⟩ := hu.settle cpu
  cases hstep.symm.trans ht'
  refine ⟨hinv, hquiet, fun hlt => ?_⟩
  obtain rfl | hreturns := hreturns
  · rw [Machine.depth, Machine.depth, hsame] at hlt
    exact absurd hlt (lt_irrefl _)
  · exact hreturns.congr hsame.symm

theorem Inv.step (h : Inv m) (hquiet : Cpu.quiet m = false) {a : Action}
    (hstep : cpu.step m a = some t) : Stepped m t := by
  cases a with
  | user c imr =>
      rw [Cpu.step, Option.ite_none_right_eq_some] at hstep
      obtain ⟨⟨hring, hc⟩, heq⟩ := hstep
      cases heq
      exact ⟨h.user hring hc imr, quiet_of_user hc,
        fun hlt => absurd hlt (lt_irrefl _)⟩
  | irq irq =>
      rw [Cpu.step, Option.ite_none_right_eq_some] at hstep
      obtain ⟨⟨hintr, -⟩, heq⟩ := hstep
      obtain ⟨u, hu, hquiet', hinv, hdepth⟩ := h.irq cpu hintr irq
      cases heq.symm.trans hu
      exact ⟨hinv, hquiet', fun hlt => by omega⟩
  | sysCall =>
      rw [Cpu.step, Option.ite_none_right_eq_some] at hstep
      obtain ⟨hring, heq⟩ := hstep
      obtain ⟨u, hu, hquiet', hinv, hdepth⟩ := h.sysCall cpu hring
      cases heq.symm.trans hu
      exact ⟨hinv, hquiet', fun hlt => by omega⟩
  | kernel =>
      rw [Cpu.step, Option.ite_none_right_eq_some,
        Option.bind_eq_some_iff] at hstep
      obtain ⟨hasm, u, hinstr, hsettle⟩ := hstep
      obtain ⟨hring, -⟩ := Context.inAsm_iff.mp hasm
      obtain ⟨u', hu', hinv, hhist⟩ := h.instr cpu hasm
        (intr_of_inAsm hquiet hasm)
        fun heip => h.number_of_instr hring heip hinstr
      cases hinstr.symm.trans hu'
      exact .of_settle hinv (by rw [hhist]) hsettle
  | handler c stack imr ready =>
      rw [Cpu.step] at hstep
      split at hstep
      next => cases hstep
      next a calls hcalls =>
        rw [Option.ite_none_right_eq_some] at hstep
        obtain ⟨⟨hC, hC', hsegs, hbelow, -⟩, heq⟩ := hstep
        cases heq
        exact ⟨h.handler hC hcalls hC' hsegs hbelow stack imr ready,
          quiet_of_inC hC', fun hlt => absurd hlt (lt_irrefl _)⟩
  | leave eax ecx edx flags =>
      rw [Cpu.step] at hstep
      split at hstep
      next => cases hstep
      next a calls hcalls =>
        rw [Option.ite_none_right_eq_some] at hstep
        obtain ⟨hC, heq⟩ := hstep
        obtain ⟨u, hu, hinv, hsame⟩ := h.leave cpu hC hcalls eax ecx edx flags
        rw [hu] at heq
        exact .of_settle hinv hsame heq

/-! ## Whole runs -/

variable {tasks : Fin NR_TASKS → Task}

theorem Task.context_user (task : Task) (mem : Int → Val) :
    (task.context mem).user = true := by
  have hring : (taskSelector 0 &&& 3 != 0) = true := by decide
  exact hring

/-- `kernel_main` gives every process a frame. -/
theorem initialMem_holds (tasks : Fin NR_TASKS → Task) (mem : Addr → Val)
    (p : Fin NR_TASKS) :
    Holds (initialMem tasks mem) (procAddr p)
      ((tasks p).context fun o => mem ⟨.proc p, o⟩) := by
  refine ⟨mem ⟨.proc p, 28⟩, mem ⟨.proc p, 48⟩, ?_⟩
  rw [Context.outer, Task.context_user]
  simp [Words, Context.inner, Task.context, initialMem, Task.fields, procAddr,
    Loc.add, List.lookup_cons, P_LDT_SEL, P_STACKTOP, EAXREG]

/-- The first `restart` starts the first process. -/
theorem boot_inv (cpu : Cpu) (m : Machine) (tasks : Fin NR_TASKS → Task) :
    ∃ t, cpu.boot m tasks = some t ∧ Inv t ∧ Cpu.quiet t = false := by
  have hresumes := restart_resumes cpu (m := kernelMain m tasks)
    ⟨rfl, rfl, rfl⟩ rfl rfl (initialMem_holds tasks m.mem 0)
    (Task.context_user _ _)
  have hafter : After cpu.quietStep 12 (kernelMain m tasks) fun t =>
      Inv t ∧ Cpu.quiet t = false := by
    refine hresumes.mono fun t ⟨ldtr, ht⟩ => ?_
    have hring : t.ctx.user = true := by
      rw [ht]
      exact Task.context_user _ _
    refine ⟨?_, quiet_of_user hring⟩
    rw [ht] at hring ⊢
    exact ⟨rfl, fun p => Task.context_user _ _,
      fun p _ => initialMem_holds tasks m.mem p, .user hring rfl rfl rfl⟩
  rw [Cpu.boot]
  exact settle_of_after hafter (fun t ht => ht.2) (by decide)

theorem reachable_inv {s₀ s : Machine} {acts : List Action}
    (hboot : cpu.boot m tasks = some s₀)
    (hrun : exec cpu.step s₀ acts = some s) :
    Inv s ∧ Cpu.quiet s = false := by
  obtain ⟨t, ht, hinv⟩ := boot_inv cpu m tasks
  cases hboot.symm.trans ht
  refine exec_inv (I := fun s => Inv s ∧ Cpu.quiet s = false) ?_ hinv hrun
  intro s a t ⟨hinv, hquiet⟩ hstep
  have hstepped := hinv.step hquiet hstep
  exact ⟨hstepped.inv, hstepped.quiet⟩

/-- The kernel never gets stuck: an interrupt that is let through is entered,
an instruction of `kernel.asm` can be executed and a C function can return. Only
a system call with a number that is not in the table goes astray. -/
theorem kernel_goes_on {s₀ s : Machine} {acts : List Action}
    (hboot : cpu.boot m tasks = some s₀)
    (hrun : exec cpu.step s₀ acts = some s) :
    (∀ irq : Fin 8, s.ctx.flags.intr = true → s.imr.getLsbD irq = false →
      ∃ t, cpu.step s (.irq irq) = some t) ∧
    (s.ctx.user = true → ∃ t, cpu.step s .sysCall = some t) ∧
    (s.ctx.inAsm = true → (s.ctx.eip = .code (.asm .sysCall 2) →
      (cpu.num s.ctx.eax).toNat < NR_SYS_CALL) →
      ∃ t, cpu.step s .kernel = some t) ∧
    (s.ctx.inC = true → ∀ eax ecx edx flags,
      ∃ t, cpu.step s (.leave eax ecx edx flags) = some t) := by
  obtain ⟨hinv, hquiet⟩ := reachable_inv hboot hrun
  refine ⟨fun irq hintr hmask => ?_, fun hring => ?_, fun hasm hnumber => ?_,
    fun hC eax ecx edx flags => ?_⟩
  · obtain ⟨t, ht, -⟩ := hinv.irq cpu hintr irq
    refine ⟨t, ?_⟩
    rw [Cpu.step, if_pos ⟨hintr, ne_true_of_eq_false hmask⟩, ht]
  · obtain ⟨t, ht, -⟩ := hinv.sysCall cpu hring
    refine ⟨t, ?_⟩
    rw [Cpu.step, if_pos hring, ht]
  · obtain ⟨u, hu, hinv', -⟩ := hinv.instr cpu hasm
      (intr_of_inAsm hquiet hasm) hnumber
    obtain ⟨t, ht, -⟩ := hinv'.settle cpu
    refine ⟨t, ?_⟩
    rw [Cpu.step, if_pos hasm, hu, Option.bind_some, ht]
  · obtain ⟨hring, pc, heip⟩ := Context.inC_iff.mp hC
    obtain ⟨a, rest, hcalls, -⟩ := (hinv.level hring).handler heip
    obtain ⟨u, hu, hinv', -⟩ := hinv.leave cpu hC hcalls eax ecx edx flags
    obtain ⟨t, ht, -⟩ := hinv'.settle cpu
    refine ⟨t, ?_⟩
    rw [Cpu.step, hcalls]
    simp only [hC, if_true, hu]
    exact ht

/-- In every run `k_reenter` is one less than the number of interrupts that
have not returned, and every return gives back what the interrupt found: to
the kernel its registers and its stack, to a process the registers it had when
it was last interrupted, or the value of its system call in `eax`. -/
theorem interrupts_restore (cpu : Cpu) (m : Machine)
    (tasks : Fin NR_TASKS → Task) {s₀ s : Machine} {acts : List Action}
    (hboot : cpu.boot m tasks = some s₀)
    (hrun : exec cpu.step s₀ acts = some s) :
    s.k_reenter = (s.depth : Int) - 1 ∧
      ∀ a t, cpu.step s a = some t → t.depth < s.depth → Returns s t := by
  obtain ⟨hinv, hquiet⟩ := reachable_inv hboot hrun
  exact ⟨hinv.depth, fun a t hstep => (hinv.step hquiet hstep).returns⟩

/-- Two interrupts, the second one in the C function of the first. -/
def nestedRun : List Action :=
  [.irq 0, .kernel, .kernel, .irq 1, .kernel, .kernel,
   .leave (.word 1) (.word 2) (.word 3) ⟨true, false, 0⟩, .kernel]

def blankContext : Context where
  eax := .word 0
  ecx := .word 0
  edx := .word 0
  ebx := .word 0
  esp := .word 0
  ebp := .word 0
  esi := .word 0
  edi := .word 0
  cs := SELECTOR_KERNEL_CS
  ss := SELECTOR_KERNEL_DS
  ds := SELECTOR_KERNEL_DS
  es := SELECTOR_KERNEL_DS
  fs := SELECTOR_KERNEL_DS
  gs := SELECTOR_KERNEL_DS
  eip := .word 0
  flags := ⟨false, false, 0⟩

/-- A machine with the clock and the keyboard unmasked. -/
def blankMachine : Machine where
  ctx := blankContext
  mem := fun _ => .word 0
  ldtr := 0
  esp0 := .word 0
  k_reenter := 0
  p_proc_ready := 0
  imr := 0xFC
  calls := []
  history := ⟨[], fun _ => blankContext, 0⟩

def blankCpu : Cpu where
  addr := fun _ => 0
  code := fun _ => 0
  flags := fun _ => 0
  status := id
  irq_table := fun _ => 0
  sys_call_table := fun _ => 0

def blankTasks : Fin NR_TASKS → Task := fun p => ⟨0x1000 * p.val, 0x8000⟩

theorem interrupts_restore_nested :
    ∃ s₀ s t, blankCpu.boot blankMachine blankTasks = some s₀ ∧
      exec blankCpu.step s₀ nestedRun = some s ∧
      blankCpu.step s .kernel = some t ∧ s.k_reenter = 1 ∧ s.depth = 2 ∧
      t.depth = 1 ∧ Returns s t := by
  have hrun : ((blankCpu.boot blankMachine blankTasks).bind fun s₀ =>
      (exec blankCpu.step s₀ nestedRun).bind fun s =>
        (blankCpu.step s .kernel).map fun t => (s.depth, t.depth)) =
      some (2, 1) := by
    decide +kernel
  obtain ⟨s₀, hboot, hrun⟩ := Option.bind_eq_some_iff.mp hrun
  obtain ⟨s, hexec, hrun⟩ := Option.bind_eq_some_iff.mp hrun
  obtain ⟨t, hstep, heq⟩ := Option.map_eq_some_iff.mp hrun
  obtain ⟨hs, ht⟩ := Prod.mk.inj heq
  obtain ⟨hk, hreturns⟩ :=
    interrupts_restore blankCpu blankMachine blankTasks hboot hexec
  rw [hs] at hk
  exact ⟨s₀, s, t, hboot, hexec, hstep, hk, hs, ht,
    hreturns .kernel t hstep (by omega)⟩

end LearningLinux.ContextSwitch
