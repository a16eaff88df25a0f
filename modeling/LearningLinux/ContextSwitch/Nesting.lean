import LearningLinux.ContextSwitch.Stubs

/-!
# Interrupted contexts on the kernel stack

While the kernel runs there is a chain of contexts: the one that runs, the one
it interrupted, and so on down to a process. Every context but the last is in
a handler, and `Point` says where it may be there and what of its stack it
depends on. `Level` is the whole chain. A context that was interrupted depends
only on memory from its stack pointer upwards, and whatever runs above it stays
below (`Level.congr`).
-/

namespace LearningLinux.ContextSwitch

open LearningLinux.Lib

variable {cpu : Cpu} {mem mem' : Addr → Val} {frame slot : Addr} {v e : Val}
  {c c' : Context} {own own' : List Activation}

/-! ## Inside a handler -/

/-- A handler is at `pc` with the registers `c`, having saved what it
interrupted at `frame` and pushed the way out at `slot`. `e` is the `eax` in
the frame, and `v` the one that should be there. The two differ only between
the return of a system call and the instruction that stores its value. `own` is
the handler's C function, if one is running. -/
inductive Point (mem : Addr → Val) (frame slot : Addr) (v : Val) :
    Handler → Val → Code → Context → List Activation → Prop where
  | push {c : Context} (irq : Fin 8) (esp : c.esp = .addr slot)
      (intr : c.flags.intr = true) :
      Point mem frame slot v .irq v (.asm (.hwint irq) 7) c []
  | callIrq {c : Context} (irq : Fin 8) (esp : c.esp = .addr (slot.add (-4)))
      (intr : c.flags.intr = true) :
      Point mem frame slot v .irq v (.asm (.hwint irq) 8) c []
  | inIrq {c : Context} (irq : Fin 8) (pc : BitVec 32) (a : Activation)
      (kind : a.kind = .irq) (base : a.base = slot.add (-8))
      (ret : mem a.base = .code (.asm (.hwint irq) 9))
      (esp : c.below a.base = true) :
      Point mem frame slot v .irq v (.c pc) c [a]
  | popEcx {c : Context} (irq : Fin 8) (esp : c.esp = .addr (slot.add (-4))) :
      Point mem frame slot v .irq v (.asm (.hwint irq) 9) c []
  | cli {c : Context} (irq : Fin 8) (esp : c.esp = .addr slot) :
      Point mem frame slot v .irq v (.asm (.hwint irq) 10) c []
  | tail {c : Context} (irq : Fin 8) (esp : c.esp = .addr slot)
      (intr : c.flags.intr = false) :
      Point mem frame slot v .irq v (.asm (.hwint irq) 11) c []
  | callSys {c : Context} (esp : c.esp = .addr slot)
      (esi : c.esi = .addr frame) (intr : c.flags.intr = true) :
      Point mem frame slot v .sysCall v (.asm .sysCall 2) c []
  | inSys {c : Context} (pc : BitVec 32) (a : Activation)
      (kind : a.kind = .sysCall) (base : a.base = slot.add (-4))
      (ret : mem a.base = .code (.asm .sysCall 3)) (esi : a.esi = .addr frame)
      (esp : c.below a.base = true) :
      Point mem frame slot v .sysCall v (.c pc) c [a]
  | movEaxreg {c : Context} (e : Val) (esp : c.esp = .addr slot)
      (esi : c.esi = .addr frame) (eax : c.eax = v) :
      Point mem frame slot v .sysCall e (.asm .sysCall 3) c []
  | cliSys {c : Context} (esp : c.esp = .addr slot) :
      Point mem frame slot v .sysCall v (.asm .sysCall 4) c []
  | tailSys {c : Context} (esp : c.esp = .addr slot)
      (intr : c.flags.intr = false) :
      Point mem frame slot v .sysCall v (.asm .sysCall 5) c []

theorem Context.below_iff {base : Addr} : c.below base = true ↔
    ∃ a : Addr, c.esp = .addr a ∧ a.block = .stack ∧ a.off ≤ base.off := by
  rw [Context.below]
  split
  next a ha => simp [ha]
  next h => simpa using fun a ha => absurd ha (h a)

variable {k : Handler} {pc : Code}

/-- The stack pointer of a handler is not above `slot`. -/
theorem Point.esp_le (h : Point mem frame slot v k e pc c own)
    (hslot : slot.block = .stack) :
    ∃ a : Addr, c.esp = .addr a ∧ a.block = .stack ∧ a.off ≤ slot.off := by
  cases h with
  | push _ esp | cli _ esp | tail _ esp | callSys esp | movEaxreg _ esp
  | cliSys esp | tailSys esp => exact ⟨slot, esp, hslot, le_refl _⟩
  | callIrq _ esp | popEcx _ esp => exact ⟨_, esp, hslot, by simp⟩
  | inIrq _ _ a _ base _ esp | inSys _ a _ base _ _ esp =>
      obtain ⟨b, hb, hblock, hle⟩ := Context.below_iff.mp esp
      rw [base, Loc.add_off] at hle
      exact ⟨b, hb, hblock, by omega⟩

/-- A handler depends only on memory from its stack pointer upwards. -/
theorem Point.congr (h : Point mem frame slot v k e pc c own)
    (hslot : slot.block = .stack)
    (hmem : ∀ a l : Addr, c.esp = .addr a → l.block = .stack → a.off ≤ l.off →
      mem' l = mem l) : Point mem' frame slot v k e pc c own := by
  cases h with
  | push irq esp intr => exact .push irq esp intr
  | callIrq irq esp intr => exact .callIrq irq esp intr
  | inIrq irq pc a kind base ret esp =>
      obtain ⟨b, hb, -, hle⟩ := Context.below_iff.mp esp
      refine .inIrq irq pc a kind base ?_ esp
      rw [hmem b a.base hb (by rw [base]; exact hslot) hle, ret]
  | popEcx irq esp => exact .popEcx irq esp
  | cli irq esp => exact .cli irq esp
  | tail irq esp intr => exact .tail irq esp intr
  | callSys esp esi intr => exact .callSys esp esi intr
  | inSys pc a kind base ret esi esp =>
      obtain ⟨b, hb, -, hle⟩ := Context.below_iff.mp esp
      refine .inSys pc a kind base ?_ esi esp
      rw [hmem b a.base hb (by rw [base]; exact hslot) hle, ret]
  | movEaxreg e esp esi eax => exact .movEaxreg e esp esi eax
  | cliSys esp => exact .cliSys esp
  | tailSys esp intr => exact .tailSys esp intr

/-! ## The chain -/

theorem Holds.congr {f : Addr} (h : Holds mem f c)
    (hmem : ∀ o, f.off ≤ o → mem' ⟨f.block, o⟩ = mem ⟨f.block, o⟩) :
    Holds mem' f c := by
  obtain ⟨kernel_esp, retaddr, h⟩ := h
  exact ⟨kernel_esp, retaddr, h.congr fun o hle _ => hmem o hle⟩

/-- The kernel runs at `c`, and the list has what it has interrupted. The first
interrupt of all took the process `p`, which is to get `last` back. -/
inductive Level (mem : Addr → Val) (p : Fin NR_TASKS) (last : Context) :
    Context → List Snapshot → List Activation → Prop where
  | first {c : Context} {own : List Activation} {k : Handler} {e : Val}
      {pc : Code} (found : Snapshot) (kernel : c.Kernel)
      (eip : c.eip = .code pc)
      (out : mem ⟨.stack, -4⟩ = .code restart)
      (point : Point mem (procAddr p) ⟨.stack, -4⟩ last.eax k e pc c own)
      (holds : Holds mem (procAddr p) { last with eax := e }) :
      Level mem p last c [found] own
  | nested {c : Context} {own : List Activation} {found : Snapshot}
      {rest : List Snapshot} {calls : List Activation} {pc : Code} (a : Addr)
      (v : Val) (kernel : c.Kernel) (eip : c.eip = .code pc)
      (below : Level mem p last found.ctx rest calls)
      (intr : found.ctx.flags.intr = true) (esp : found.ctx.esp = .addr a)
      (block : a.block = .stack) (holds : Holds mem (a.add (-64)) found.ctx)
      (out : mem (a.add (-68)) = .code restartReenter)
      (point : Point mem (a.add (-64)) (a.add (-68)) v .irq v pc c own)
      (same : ∀ l : Addr, l.block = .stack → a.off ≤ l.off →
        mem l = found.mem l) :
      Level mem p last c (found :: rest) (own ++ calls)

variable {p : Fin NR_TASKS} {last : Context} {found : List Snapshot}
  {calls : List Activation}

theorem Level.kernel (h : Level mem p last c found calls) : c.Kernel := by
  cases h with
  | first _ kernel => exact kernel
  | nested _ _ kernel => exact kernel

theorem Level.ne_nil (h : Level mem p last c found calls) : found ≠ [] := by
  cases h with
  | first => exact List.cons_ne_nil _ _
  | nested => exact List.cons_ne_nil _ _

theorem Level.esp (h : Level mem p last c found calls) :
    ∃ a : Addr, c.esp = .addr a ∧ a.block = .stack := by
  cases h with
  | first _ _ _ _ point =>
      obtain ⟨a, ha, hblock, -⟩ := point.esp_le rfl
      exact ⟨a, ha, hblock⟩
  | nested a _ _ _ _ _ _ block _ _ point =>
      obtain ⟨b, hb, hblock, -⟩ := point.esp_le block
      exact ⟨b, hb, hblock⟩

/-- A chain depends only on memory from the stack pointer upwards, and on the
frame of the process at its end. -/
theorem Level.congr (h : Level mem p last c found calls)
    (hstack : ∀ a l : Addr, c.esp = .addr a → l.block = .stack →
      a.off ≤ l.off → mem' l = mem l)
    (hproc : ∀ o, mem' ⟨.proc p, o⟩ = mem ⟨.proc p, o⟩) :
    Level mem' p last c found calls := by
  induction h with
  | first found kernel eip out point holds =>
      obtain ⟨a, ha, -, hle⟩ := point.esp_le rfl
      refine .first found kernel eip ?_ (point.congr rfl hstack)
        (holds.congr fun o _ => hproc o)
      rw [hstack a ⟨.stack, -4⟩ ha rfl hle, out]
  | nested a v kernel eip below intr esp block holds out point same ih =>
      obtain ⟨b, hb, -, hle⟩ := point.esp_le block
      rw [Loc.add_off] at hle
      -- all that is above the slot of this handler is above its stack pointer
      have habove : ∀ l : Addr, l.block = .stack → a.off - 68 ≤ l.off →
          mem' l = mem l := by
        intro l hl hoff
        exact hstack b l hb hl (by omega)
      refine .nested a v kernel eip (ih ?_) intr esp block (holds.congr ?_) ?_
        (point.congr block hstack) ?_
      · intro a' l ha' hl hoff
        rw [esp] at ha'
        cases ha'
        exact habove l hl (by omega)
      · intro o ho
        rw [Loc.add_off] at ho
        exact habove ⟨a.block, o⟩ block (by dsimp only; omega)
      · rw [habove (a.add (-68)) block (by rw [Loc.add_off]; omega), out]
      · intro l hl hoff
        rw [habove l hl (by omega), same l hl hoff]

/-- What the running handler may do to a chain: be somewhere else, and change
what lies below its slot. -/
theorem Level.move (h : Level mem p last c found calls)
    (heip : c.eip = .code pc) :
    ∃ frame slot v k e own rest, slot.block = .stack ∧ calls = own ++ rest ∧
      Point mem frame slot v k e pc c own ∧
      ∀ mem' c' pc' own', c'.Kernel → c'.eip = .code pc' →
        (∀ l : Addr, l.block = .stack → slot.off ≤ l.off → mem' l = mem l) →
        (∀ o, mem' ⟨.proc p, o⟩ = mem ⟨.proc p, o⟩) →
        Point mem' frame slot v k e pc' c' own' →
        Level mem' p last c' found (own' ++ rest) := by
  cases h with
  | first found kernel eip out point holds =>
      cases heip.symm.trans eip
      refine ⟨_, _, _, _, _, calls, [], rfl, (List.append_nil _).symm, point, ?_⟩
      intro mem' c' pc' own' hkernel heip hstack hproc hpoint
      rw [List.append_nil]
      refine .first found hkernel heip ?_ hpoint (holds.congr fun o _ => hproc o)
      rw [hstack ⟨.stack, -4⟩ rfl (le_refl _), out]
  | nested a v kernel eip below intr esp block holds out point same =>
      cases heip.symm.trans eip
      refine ⟨_, a.add (-68), _, _, _, _, _, block, rfl, point, ?_⟩
      intro mem' c' pc' own' hkernel heip hstack hproc hpoint
      rw [Loc.add_off] at hstack
      refine .nested a v hkernel heip (below.congr ?_ hproc) intr esp block
        (holds.congr ?_) ?_ hpoint ?_
      · intro a' l ha' hl hoff
        rw [esp] at ha'
        cases ha'
        exact hstack l hl (by omega)
      · intro o ho
        rw [Loc.add_off] at ho
        exact hstack ⟨a.block, o⟩ block (by dsimp only; omega)
      · rw [hstack (a.add (-68)) block (le_refl _), out]
      · intro l hl hoff
        rw [hstack l hl (by omega), same l hl hoff]

/-! ## One instruction on -/

section

variable {irq : Fin 8} {s : Addr} {a : Activation} {rest : List Activation}

theorem update_below (mem : Addr → Val) {l : Addr} (w : Val)
    (h : s.off ≤ l.off) : Function.update mem (s.add (-4)) w l = mem l := by
  refine Function.update_of_ne ?_ w mem
  rintro rfl
  rw [Loc.add_off] at h
  omega

theorem update_stack (mem : Addr → Val) (d : Int) (w : Val)
    (hs : s.block = .stack) (p : Fin NR_TASKS) (o : Int) :
    Function.update mem (s.add d) w ⟨.proc p, o⟩ = mem ⟨.proc p, o⟩ := by
  refine Function.update_of_ne ?_ w mem
  intro heq
  have hblock := congrArg Loc.block heq
  rw [Loc.add_block, hs] at hblock
  cases hblock

/-- `push %1` -/
theorem Level.push (h : Level mem p last c found calls)
    (heip : c.eip = .code (.asm (.hwint irq) 7)) :
    ∃ s : Addr, c.esp = .addr s ∧ s.block = .stack ∧
      ∀ w, Level (Function.update mem (s.add (-4)) w) p last { c with
        eip := .code (.asm (.hwint irq) 8)
        esp := .addr (s.add (-4)) } found calls := by
  obtain ⟨frame, slot, v, k, e, own, rest, hslot, rfl, point, hmove⟩ :=
    h.move heip
  obtain ⟨hcs, hss, hds⟩ := h.kernel
  cases point with
  | push _ esp intr =>
      refine ⟨slot, esp, hslot, fun w => hmove _ _ _ [] ⟨hcs, hss, hds⟩ rfl ?_
        (update_stack mem (-4) w hslot p) (.callIrq irq rfl intr)⟩
      intro l _ hle
      exact update_below mem w hle

/-- `call [irq_table + 4 * %1]` -/
theorem Level.callIrq (h : Level mem p last c found calls)
    (heip : c.eip = .code (.asm (.hwint irq) 8)) :
    ∃ s : Addr, c.esp = .addr s ∧ s.block = .stack ∧
      ∀ pc, Level (Function.update mem (s.add (-4))
          (.code (.asm (.hwint irq) 9))) p last { c with
        eip := .code (.c pc)
        esp := .addr (s.add (-4)) } found
          (⟨.irq, s.add (-4), c.ebx, c.ebp, c.esi, c.edi⟩ :: calls) := by
  obtain ⟨frame, slot, v, k, e, own, rest, hslot, rfl, point, hmove⟩ :=
    h.move heip
  obtain ⟨hcs, hss, hds⟩ := h.kernel
  cases point with
  | callIrq _ esp intr =>
      refine ⟨_, esp, hslot, fun pc => hmove _ _ _ [_] ⟨hcs, hss, hds⟩ rfl ?_
        (update_stack (s := slot.add (-4)) mem (-4) _ hslot p)
        (.inIrq irq pc _ rfl ?_ (Function.update_self ..) ?_)⟩
      · intro l _ hle
        exact update_below mem _ (by rw [Loc.add_off]; omega)
      · rw [Loc.add_add]
        rfl
      · exact Context.below_iff.mpr ⟨_, rfl, hslot, le_refl _⟩

/-- `pop ecx` -/
theorem Level.popEcx (h : Level mem p last c found calls)
    (heip : c.eip = .code (.asm (.hwint irq) 9)) :
    ∃ s : Addr, c.esp = .addr s ∧ ∀ w, Level mem p last { c with
      eip := .code (.asm (.hwint irq) 10)
      esp := .addr (s.add 4)
      ecx := w } found calls := by
  obtain ⟨frame, slot, v, k, e, own, rest, hslot, rfl, point, hmove⟩ :=
    h.move heip
  obtain ⟨hcs, hss, hds⟩ := h.kernel
  cases point with
  | popEcx _ esp =>
      refine ⟨_, esp, fun w => hmove _ _ _ [] ⟨hcs, hss, hds⟩ rfl
        (fun _ _ _ => rfl) (fun _ => rfl) (.cli irq ?_)⟩
      rw [Loc.add_add]
      exact congrArg Val.addr slot.add_zero

/-- `cli`, in either routine. -/
theorem Level.cli (h : Level mem p last c found calls) {r : Routine} {i : Nat}
    (heip : c.eip = .code (.asm r i))
    (hline : (∃ irq, r = .hwint irq ∧ i = 10) ∨ (r = .sysCall ∧ i = 4)) :
    Level mem p last { c with
      eip := .code (.asm r (i + 1))
      flags := { c.flags with intr := false } } found calls := by
  obtain ⟨frame, slot, v, k, e, own, rest, hslot, rfl, point, hmove⟩ :=
    h.move heip
  obtain ⟨hcs, hss, hds⟩ := h.kernel
  obtain ⟨irq, rfl, rfl⟩ | ⟨rfl, rfl⟩ := hline
  · cases point with
    | cli _ esp =>
        exact hmove _ _ _ [] ⟨hcs, hss, hds⟩ rfl (fun _ _ _ => rfl)
          (fun _ => rfl) (.tail irq esp rfl)
  · cases point with
    | cliSys esp =>
        exact hmove _ _ _ [] ⟨hcs, hss, hds⟩ rfl (fun _ _ _ => rfl)
          (fun _ => rfl) (.tailSys esp rfl)

/-- `call [sys_call_table + eax * 4]` -/
theorem Level.callSys (h : Level mem p last c found calls)
    (heip : c.eip = .code (.asm .sysCall 2)) :
    ∃ s : Addr, c.esp = .addr s ∧ s.block = .stack ∧
      ∀ pc, Level (Function.update mem (s.add (-4))
          (.code (.asm .sysCall 3))) p last { c with
        eip := .code (.c pc)
        esp := .addr (s.add (-4)) } found
          (⟨.sysCall, s.add (-4), c.ebx, c.ebp, c.esi, c.edi⟩ :: calls) := by
  obtain ⟨frame, slot, v, k, e, own, rest, hslot, rfl, point, hmove⟩ :=
    h.move heip
  obtain ⟨hcs, hss, hds⟩ := h.kernel
  cases point with
  | callSys esp esi intr =>
      refine ⟨slot, esp, hslot, fun pc => hmove _ _ _ [_] ⟨hcs, hss, hds⟩ rfl ?_
        (update_stack mem (-4) _ hslot p)
        (.inSys pc _ rfl rfl (Function.update_self ..) esi ?_)⟩
      · intro l _ hle
        exact update_below mem _ hle
      · exact Context.below_iff.mpr ⟨_, rfl, hslot, le_refl _⟩

/-- Storing `eax` in a frame. -/
theorem Holds.setEax {f : Addr} (h : Holds mem f c) (w : Val) :
    Holds (Function.update mem (f.add EAXREG) w) f { c with eax := w } := by
  obtain ⟨kernel_esp, retaddr, h⟩ := h
  exact ⟨kernel_esp, retaddr, h.set 11 w⟩

/-- `mov [esi + EAXREG - P_STACKBASE], eax` -/
theorem Level.store (h : Level mem p last c found calls)
    (heip : c.eip = .code (.asm .sysCall 3)) :
    c.esi = .addr (procAddr p) ∧
      Level (Function.update mem ((procAddr p).add EAXREG) c.eax) p last
        { c with eip := .code (.asm .sysCall 4) } found calls := by
  cases h with
  | nested a v kernel eip below intr esp block holds out point same =>
      -- a nested handler is not a system call
      cases heip.symm.trans eip
      cases point
  | first found kernel eip out point holds =>
      cases heip.symm.trans eip
      obtain ⟨hcs, hss, hds⟩ := kernel
      cases point with
      | movEaxreg e esp esi eax =>
          have hne : (⟨.stack, -4⟩ : Addr) ≠ (procAddr p).add EAXREG :=
            fun h => nomatch congrArg Loc.block h
          rw [eax]
          refine ⟨esi, .first found ⟨hcs, hss, hds⟩ rfl ?_ (.cliSys esp)
            (holds.setEax last.eax)⟩
          rw [Function.update_of_ne hne, out]

/-! ## C code -/

/-- C code writes to no frame in `proc_table`. -/
theorem Activation.write_proc (a : Activation) (stack : Int → Val)
    (mem : Addr → Val) (p : Fin NR_TASKS) (o : Int) :
    a.write stack mem ⟨.proc p, o⟩ = mem ⟨.proc p, o⟩ :=
  if_neg fun h => nomatch h.1

/-- A C function goes on. -/
theorem Level.handler (h : Level mem p last c found calls) {n : BitVec 32}
    (heip : c.eip = .code (.c n)) :
    ∃ a rest, calls = a :: rest ∧ ∀ stack c' n', c'.Kernel →
      c'.eip = .code (.c n') → c'.below a.base = true →
      Level (a.write stack mem) p last c' found calls := by
  obtain ⟨frame, slot, v, k, e, own, rest, hslot, rfl, point, hmove⟩ :=
    h.move heip
  cases point with
  | inIrq irq _ a kind base ret esp =>
      have hsame : ∀ stack (l : Addr),
          l = a.base ∨ slot.off ≤ l.off → a.write stack mem l = mem l := by
        intro stack l hl
        refine if_neg fun ⟨_, howns⟩ => ?_
        have hargs : a.args = 4 := by rw [Activation.args, kind]
        rw [Activation.Owns, hargs, base, Loc.add_off] at howns
        obtain rfl | hl := hl
        · rw [base, Loc.add_off] at howns
          omega
        · omega
      refine ⟨a, rest, rfl, fun stack c' n' hkernel heip' hesp =>
        hmove _ _ _ [a] hkernel heip' (fun l _ hle => hsame stack l (.inr hle))
          (a.write_proc stack mem p) (.inIrq irq n' a kind base ?_ hesp)⟩
      rw [hsame stack a.base (.inl rfl), ret]
  | inSys _ a kind base ret esi esp =>
      have hsame : ∀ stack (l : Addr), a.base.off ≤ l.off →
          a.write stack mem l = mem l := by
        intro stack l hl
        refine if_neg fun ⟨_, howns⟩ => ?_
        have hargs : a.args = 0 := by rw [Activation.args, kind]
        rw [Activation.Owns, hargs] at howns
        omega
      refine ⟨a, rest, rfl, fun stack c' n' hkernel heip' hesp =>
        hmove _ _ _ [a] hkernel heip' (fun l _ hle => hsame stack l ?_)
          (a.write_proc stack mem p) (.inSys n' a kind base ?_ esi hesp)⟩
      · rw [base, Loc.add_off]
        omega
      · rw [hsame stack a.base (le_refl _), ret]

/-- The C function of an interrupt returns. -/
theorem Level.leaveIrq (h : Level mem p last c found (a :: calls))
    {n : BitVec 32} (heip : c.eip = .code (.c n)) (hkind : a.kind = .irq) :
    ∃ irq, mem a.base = .code (.asm (.hwint irq) 9) ∧ ∀ c', c'.Kernel →
      c'.eip = .code (.asm (.hwint irq) 9) → c'.esp = .addr (a.base.add 4) →
      Level mem p last c' found calls := by
  obtain ⟨frame, slot, v, k, e, own, rest, hslot, hcalls, point, hmove⟩ :=
    h.move heip
  cases point with
  | inIrq irq _ b kind base ret esp =>
      cases hcalls
      refine ⟨irq, ret, fun c' hkernel heip' hesp => hmove _ _ _ [] hkernel heip'
        (fun _ _ _ => rfl) (fun _ => rfl) (.popEcx irq ?_)⟩
      rw [hesp, base, Loc.add_add]
      rfl
  | inSys _ b kind =>
      cases hcalls
      rw [kind] at hkind
      cases hkind

/-- The C function of a system call returns. -/
theorem Level.leaveSys (h : Level mem p last c found (a :: calls))
    {n : BitVec 32} (heip : c.eip = .code (.c n)) (hkind : a.kind = .sysCall) :
    mem a.base = .code (.asm .sysCall 3) ∧ ∀ c', c'.Kernel →
      c'.eip = .code (.asm .sysCall 3) → c'.esp = .addr (a.base.add 4) →
      c'.esi = a.esi →
      Level mem p { last with eax := c'.eax } c' found calls := by
  generalize hcalls : a :: calls = all at h
  cases h with
  | nested b v kernel eip below intr esp block holds out point same =>
      cases heip.symm.trans eip
      cases point with
      | inIrq irq _ b kind =>
          cases hcalls
          rw [kind] at hkind
          cases hkind
  | first found kernel eip out point holds =>
      cases heip.symm.trans eip
      cases point with
      | inIrq irq _ b kind =>
          cases hcalls
          rw [kind] at hkind
          cases hkind
      | inSys _ b kind base ret esi esp =>
          cases hcalls
          refine ⟨ret, fun c' hkernel heip' hesp hesi => .first found hkernel heip'
            out (.movEaxreg last.eax ?_ (hesi.trans esi) rfl) holds⟩
          rw [hesp, base, Loc.add_add]
          rfl

/-! ## The end of a handler -/

/-- The last lines of the two routines, after `cli`. -/
def Context.AtTail (c : Context) : Prop :=
  (∃ irq, c.eip = .code (.asm (.hwint irq) 11)) ∨
    c.eip = .code (.asm .sysCall 5)

theorem Point.atTail (h : Point mem frame slot v k e pc c own)
    (heip : c.eip = .code pc) (htail : c.AtTail) :
    own = [] ∧ e = v ∧ c.esp = .addr slot ∧ c.flags.intr = false := by
  obtain ⟨irq, htail⟩ | htail := htail
  · cases heip.symm.trans htail
    cases h with
    | tail _ esp intr => exact ⟨rfl, rfl, esp, intr⟩
  · cases heip.symm.trans htail
    cases h with
    | tailSys esp intr => exact ⟨rfl, rfl, esp, intr⟩

end

end LearningLinux.ContextSwitch
