import LearningLinux.Lib.ByteMem
import LearningLinux.Lib.Iterate
import Mathlib.Data.List.Range

/-!
# `SetupPaging`

The part of the boot loader that fills a page directory and the page tables
behind it and turns paging on. It is modelled block by block, from label to
label; the two loops have one body, `stosd` and then an addition to `eax`,
which holds the next entry with its flags.

The segments are flat and the direction flag is clear. `stored` has the
addresses of the `stosd`s in their order.
-/

namespace LearningLinux.Boot

open LearningLinux.Lib

def BaseOfLoaderPhyAddr : Nat := 0x90000
def PageDirBase : Nat := 0x200000
def PageTblBase : Nat := 0x201000
def PG_P : Nat := 1
def PG_RWW : Nat := 2
def PG_USU : Nat := 4

/-- The labels, and names for the code behind the two loops. -/
inductive Label where
  | SetupPaging
  | no_remainder
  | L1
  | initTables
  | L2
  | enable
  | ret
deriving DecidableEq, Repr

structure Cpu where
  label : Label
  eax : Nat
  ebx : Nat
  ecx : Nat
  edx : Nat
  edi : Nat
  esp : Nat
  cr0 : Nat
  cr3 : Nat
  mem : ByteMem
  stored : List Nat

/-- `stosd`, `add eax, 4096`, `loop`. -/
def Cpu.stosdLoop (c : Cpu) (next : Label) : Cpu :=
  let ecx := (c.ecx + (2 ^ 32 - 1)) % 2 ^ 32
  { c with
    label := if ecx = 0 then next else c.label
    eax := (c.eax + 4096) % 2 ^ 32
    ecx := ecx
    edi := (c.edi + 4) % 2 ^ 32
    mem := c.mem.store32 c.edi c.eax
    stored := c.stored ++ [c.edi] }

/-- The variable `dwMemSize` is in memory. -/
def Cpu.step (dwMemSize : Nat) (c : Cpu) : Option Cpu :=
  match c.label with
  | .SetupPaging =>
      -- edx is 0, so that the quotient always fits
      let size := c.mem.load32 dwMemSize
      let eax := size / 0x400000
      let edx := size % 0x400000
      some { c with
        label := .no_remainder
        eax := eax
        ebx := 0x400000
        ecx := if edx = 0 then eax else (eax + 1) % 2 ^ 32
        edx := edx }
  | .no_remainder =>
      let esp := (c.esp + (2 ^ 32 - 4)) % 2 ^ 32
      some { c with
        label := .L1
        eax := PageTblBase ||| PG_P ||| PG_USU ||| PG_RWW
        edi := PageDirBase
        esp := esp
        mem := c.mem.store32 esp c.ecx }
  | .L1 => some (c.stosdLoop .initTables)
  | .initTables =>
      let product := c.mem.load32 c.esp * 1024
      some { c with
        label := .L2
        eax := PG_P ||| PG_USU ||| PG_RWW
        ebx := 1024
        ecx := product % 2 ^ 32
        edx := product / 2 ^ 32
        edi := PageTblBase
        esp := (c.esp + 4) % 2 ^ 32 }
  | .L2 => some (c.stosdLoop .enable)
  | .enable =>
      some { c with
        label := .ret
        eax := c.cr0 ||| 0x80000000
        cr0 := c.cr0 ||| 0x80000000
        cr3 := PageDirBase }
  | .ret => none

/-! ## The page walk -/

/-- A physical address and what the two entries on the way allow. -/
structure Translation where
  address : Nat
  user : Bool
  writable : Bool
deriving DecidableEq, Repr

def present (entry : Nat) : Bool := entry % 2 = 1
def writable (entry : Nat) : Bool := entry / 2 % 2 = 1
def user (entry : Nat) : Bool := entry / 4 % 2 = 1

/-- The frame an entry points to. -/
def frame (entry : Nat) : Nat := entry / 4096 * 4096

/-- The two-level walk; `none` is a page fault. -/
def walk (m : ByteMem) (cr3 address : Nat) : Option Translation :=
  let pde := m.load32 (frame cr3 + 4 * (address / 2 ^ 22))
  if ¬ present pde then none
  else
    let pte := m.load32 (frame pde + 4 * (address / 2 ^ 12 % 1024))
    if ¬ present pte then none
    else some ⟨frame pte + address % 2 ^ 12, user pde && user pte,
      writable pde && writable pte⟩

/-! ## Filling a table -/

/-- `count` entries from `base` on, the first of them `entry` and each
pointing to the page after that of the one before. -/
def fill (m : ByteMem) (base entry : Nat) : Nat → ByteMem
  | 0 => m
  | count + 1 =>
      (fill m base entry count).store32 (base + 4 * count)
        (entry + 4096 * count)

variable {m : ByteMem} {base entry count : Nat}

theorem fill_apart {b : Nat} (h : b < base ∨ base + 4 * count ≤ b) :
    (fill m base entry count).byte b = m.byte b := by
  induction count with
  | zero => rfl
  | succ count ih =>
      rw [fill, ByteMem.store32_apart (by omega), ih (by omega)]

theorem load32_fill_apart {b : Nat}
    (h : b + 4 ≤ base ∨ base + 4 * count ≤ b) :
    (fill m base entry count).load32 b = m.load32 b :=
  ByteMem.load32_congr fun _ _ _ => fill_apart (by omega)

theorem load32_fill {i : Nat} (hi : i < count)
    (hentry : entry + 4096 * i < 2 ^ 32) :
    (fill m base entry count).load32 (base + 4 * i) = entry + 4096 * i := by
  induction count with
  | zero => exact absurd hi (Nat.not_lt_zero i)
  | succ count ih =>
      rw [fill]
      by_cases hlast : i = count
      · rw [hlast] at hentry ⊢
        exact ByteMem.load32_store32_same hentry
      · rw [ByteMem.load32_store32_apart (by omega)]
        exact ih (by omega)

def Cpu.goto (c : Cpu) (label : Label) : Cpu := { c with label := label }

/-- One of the two loops after `i` rounds of `n`. -/
def Cpu.filling (c : Cpu) (base entry n i : Nat) : Cpu :=
  { c with
    eax := (entry + 4096 * i) % 2 ^ 32
    ecx := n - i
    edi := base + 4 * i
    mem := fill c.mem base entry i
    stored := c.stored ++ (List.range i).map (base + 4 * ·) }

variable {dwMemSize : Nat} {c : Cpu} {next : Label} {n : Nat}

theorem filling_next {i : Nat} (hi : i < n) (hn : n < 2 ^ 32)
    (hbase : base + 4 * n < 2 ^ 32) (hentry : entry + 4096 * i < 2 ^ 32) :
    (c.filling base entry n i).stosdLoop next =
      (c.filling base entry n (i + 1)).goto
        (if i + 1 = n then next else c.label) := by
  have hecx : (n - i + (2 ^ 32 - 1)) % 2 ^ 32 = n - (i + 1) := by omega
  have heax : entry + 4096 * i + 4096 = entry + 4096 * (i + 1) := by omega
  have hedi : (base + 4 * i + 4) % 2 ^ 32 = base + 4 * (i + 1) := by omega
  have hvalue : (entry + 4096 * i) % 2 ^ 32 = entry + 4096 * i :=
    Nat.mod_eq_of_lt hentry
  have hzero : (n - (i + 1) = 0) = (i + 1 = n) := propext (by omega)
  have hstored : c.stored ++ (List.range i).map (base + 4 * ·) ++
      [base + 4 * i] = c.stored ++ (List.range (i + 1)).map (base + 4 * ·) := by
    rw [List.range_succ, List.map_append, List.append_assoc]
    rfl
  simp only [Cpu.stosdLoop, Cpu.goto, Cpu.filling, hecx, heax, hedi, hvalue,
    hzero, hstored, fill]

theorem filling_goto (i : Nat) :
    (c.filling base entry n i).goto c.label = c.filling base entry n i := by
  simp only [Cpu.goto, Cpu.filling]

/-- A loop fills its table and goes on behind it. -/
theorem loop_run (dwMemSize : Nat) (c : Cpu) (next : Label)
    (base entry n : Nat) (hstep : ∀ d : Cpu, d.label = c.label →
      d.step dwMemSize = some (d.stosdLoop next))
    (hpos : 0 < n) (hn : n < 2 ^ 32) (hbase : base + 4 * n < 2 ^ 32)
    (hentry : ∀ i < n, entry + 4096 * i < 2 ^ 32) :
    iter (Cpu.step dwMemSize) n (c.filling base entry n 0) =
      some ((c.filling base entry n n).goto next) := by
  have hinner (i : Nat) (hi : i < n) :
      iter (Cpu.step dwMemSize) i (c.filling base entry n 0) =
        some (c.filling base entry n i) := by
    induction i with
    | zero => rfl
    | succ i ih =>
        rw [iter_succ, ih (by omega), Option.bind_some,
          hstep (c.filling base entry n i) rfl, filling_next (by omega) hn hbase (hentry i (by omega)),
          if_neg (by omega), filling_goto]
  obtain ⟨k, rfl⟩ := Nat.exists_eq_add_of_lt hpos
  rw [Nat.zero_add] at *
  rw [iter_succ, hinner k (by omega), Option.bind_some,
    hstep (c.filling base entry (k + 1) k) rfl, filling_next (by omega) hn hbase (hentry k (by omega)), if_pos rfl]

theorem filling_zero (heax : c.eax = entry) (hecx : c.ecx = n)
    (hedi : c.edi = base) (hentry : entry < 2 ^ 32) :
    c.filling base entry n 0 = c := by
  subst heax hecx hedi
  have hmod : c.eax % 2 ^ 32 = c.eax := Nat.mod_eq_of_lt hentry
  simp only [Cpu.filling, fill, Nat.mul_zero, Nat.add_zero, Nat.sub_zero, hmod,
    List.range_zero, List.map_nil, List.append_nil]

/-! ## The run -/

/-- How many page tables cover a memory: one for each 4M, rounded up. -/
def tables (memSize : Nat) : Nat :=
  memSize / 0x400000 + if memSize % 0x400000 = 0 then 0 else 1

theorem tables_bounds {memSize : Nat} (hpos : 0 < memSize)
    (hlt : memSize < 2 ^ 32) :
    0 < tables memSize ∧ tables memSize ≤ 1024 ∧
      memSize ≤ tables memSize * 0x400000 := by
  rw [tables]
  split <;> omega

/-- The processor at the call: the stack is in the segment of the loader, and
nothing has been stored. -/
structure AtCall (dwMemSize memSize : Nat) (c : Cpu) : Prop where
  label : c.label = .SetupPaging
  size : c.mem.load32 dwMemSize = memSize
  stack : BaseOfLoaderPhyAddr + 4 ≤ c.esp
  segment : c.esp ≤ BaseOfLoaderPhyAddr + 0x10000
  stored : c.stored = []

def PDE₀ : Nat := PageTblBase ||| PG_P ||| PG_USU ||| PG_RWW
def PTE₀ : Nat := PG_P ||| PG_USU ||| PG_RWW

theorem PDE₀_eq : PDE₀ = PageTblBase + 7 := by decide

theorem PTE₀_eq : PTE₀ = 7 := by decide

/-- The memory that `SetupPaging` leaves. -/
def paged (m : ByteMem) (esp n : Nat) : ByteMem :=
  fill (fill (m.store32 (esp - 4) n) PageDirBase PDE₀ n) PageTblBase PTE₀
    (n * 1024)

def storedBy (n : Nat) : List Nat :=
  (List.range n).map (PageDirBase + 4 * ·) ++
    (List.range (n * 1024)).map (PageTblBase + 4 * ·)

variable {memSize : Nat}

/-- At `.no_remainder`. -/
def Cpu.counted (c : Cpu) (memSize : Nat) : Cpu :=
  { c with
    label := .no_remainder
    eax := memSize / 0x400000
    ebx := 0x400000
    ecx := tables memSize
    edx := memSize % 0x400000 }

/-- Before the first loop. -/
def Cpu.atDirectory (c : Cpu) : Cpu :=
  { c with
    label := .L1
    eax := PDE₀
    edi := PageDirBase
    esp := c.esp - 4
    mem := c.mem.store32 (c.esp - 4) c.ecx }

/-- Before the second loop. -/
def Cpu.atTables (c : Cpu) (n : Nat) : Cpu :=
  { c with
    label := .L2
    eax := PTE₀
    ebx := 1024
    ecx := n * 1024
    edx := 0
    edi := PageTblBase
    esp := (c.esp + 4) % 2 ^ 32 }

/-- After paging has been turned on. -/
def Cpu.enabled (c : Cpu) : Cpu :=
  { c with
    label := .ret
    eax := c.cr0 ||| 0x80000000
    cr0 := c.cr0 ||| 0x80000000
    cr3 := PageDirBase }

theorem AtCall.step_counted (h : AtCall dwMemSize memSize c)
    (hlt : memSize < 2 ^ 32) :
    c.step dwMemSize = some (c.counted memSize) := by
  have hecx : (if memSize % 0x400000 = 0 then memSize / 0x400000
      else (memSize / 0x400000 + 1) % 2 ^ 32) = tables memSize := by
    rw [tables]
    split <;> omega
  rw [Cpu.step, h.label]
  dsimp only
  rw [h.size, hecx, Cpu.counted]

theorem step_atDirectory (hlabel : c.label = .no_remainder) (hlo : 4 ≤ c.esp)
    (hhi : c.esp < 2 ^ 32) : c.step dwMemSize = some c.atDirectory := by
  have hesp : (c.esp + (2 ^ 32 - 4)) % 2 ^ 32 = c.esp - 4 := by omega
  rw [Cpu.step, hlabel]
  dsimp only
  rw [hesp]
  rfl

theorem step_atTables (hlabel : c.label = .initTables)
    (hcount : c.mem.load32 c.esp = n) (hn : n ≤ 1024) :
    c.step dwMemSize = some (c.atTables n) := by
  have hlow : n * 1024 % 2 ^ 32 = n * 1024 := by omega
  have hhigh : n * 1024 / 2 ^ 32 = 0 := by omega
  rw [Cpu.step, hlabel]
  dsimp only
  rw [hcount, hlow, hhigh]
  rfl

theorem step_enabled (dwMemSize : Nat) (hlabel : c.label = .enable) :
    c.step dwMemSize = some c.enabled := by
  rw [Cpu.step, hlabel]
  rfl

/-- The run up to the end of the first loop. -/
theorem directory_run (dwMemSize : Nat) (hlabel : c.label = .no_remainder) (hecx : c.ecx = n)
    (hlo : 4 ≤ c.esp) (hhi : c.esp < 2 ^ 32) (hpos : 0 < n) (hn : n ≤ 1024) :
    iter (Cpu.step dwMemSize) (1 + n) c =
      some ((c.atDirectory.filling PageDirBase PDE₀ n n).goto .initTables) := by
  have hzero : c.atDirectory.filling PageDirBase PDE₀ n 0 = c.atDirectory :=
    filling_zero rfl hecx rfl (by decide)
  have hrun := loop_run dwMemSize c.atDirectory .initTables PageDirBase PDE₀ n
    (fun d hd => by rw [Cpu.step, hd]; rfl) hpos (by omega)
    (by rw [PageDirBase]; omega)
    (fun i hi => by rw [PDE₀_eq, PageTblBase]; omega)
  rw [hzero] at hrun
  exact iter_trans (step_atDirectory hlabel hlo hhi) hrun

/-- The run from there to the end of the second. -/
theorem tables_run (dwMemSize : Nat) (hlabel : c.label = .initTables)
    (hcount : c.mem.load32 c.esp = n) (hpos : 0 < n) (hn : n ≤ 1024) :
    iter (Cpu.step dwMemSize) (1 + n * 1024) c =
      some (((c.atTables n).filling PageTblBase PTE₀ (n * 1024)
        (n * 1024)).goto .enable) := by
  have hzero : (c.atTables n).filling PageTblBase PTE₀ (n * 1024) 0 =
      c.atTables n :=
    filling_zero rfl rfl rfl (by decide)
  have hrun := loop_run dwMemSize (c.atTables n) .enable PageTblBase PTE₀
    (n * 1024) (fun d hd => by rw [Cpu.step, hd]; rfl) (by omega) (by omega)
    (by rw [PageTblBase]; omega) (fun i hi => by rw [PTE₀_eq]; omega)
  rw [hzero] at hrun
  exact iter_trans (step_atTables hlabel hcount hn) hrun

/-- `SetupPaging` returns, and this is what it leaves. -/
theorem AtCall.run (h : AtCall dwMemSize memSize c) (hpos : 0 < memSize)
    (hlt : memSize < 2 ^ 32) : ∃ k d,
      iter (Cpu.step dwMemSize) k c = some d ∧ d.label = .ret ∧
        d.cr3 = PageDirBase ∧ d.esp = c.esp ∧
        d.mem = paged c.mem c.esp (tables memSize) ∧
        d.stored = storedBy (tables memSize) := by
  obtain ⟨hn, hle, -⟩ := tables_bounds hpos hlt
  have hstack := h.stack
  have hsegment := h.segment
  rw [BaseOfLoaderPhyAddr] at hstack hsegment
  have hdirectory := directory_run dwMemSize (c := c.counted memSize) rfl rfl (show 4 ≤ c.esp by omega)
    (show c.esp < 2 ^ 32 by omega) hn hle
  have hcount : (fill (c.mem.store32 (c.esp - 4) (tables memSize)) PageDirBase
      PDE₀ (tables memSize)).load32 (c.esp - 4) = tables memSize := by
    rw [load32_fill_apart (by rw [PageDirBase]; omega)]
    exact ByteMem.load32_store32_same (by omega)
  have htables := tables_run dwMemSize (c :=
    ((c.counted memSize).atDirectory.filling PageDirBase PDE₀
      (tables memSize) (tables memSize)).goto .initTables) rfl hcount hn hle
  have hcounted : iter (Cpu.step dwMemSize) 1 c = some (c.counted memSize) :=
    h.step_counted hlt
  have henabled := step_enabled dwMemSize (c :=
    (((((c.counted memSize).atDirectory.filling PageDirBase PDE₀
      (tables memSize) (tables memSize)).goto .initTables).atTables
        (tables memSize)).filling PageTblBase PTE₀ (tables memSize * 1024)
          (tables memSize * 1024)).goto .enable) rfl
  refine ⟨_, _, iter_trans hcounted (iter_trans hdirectory
    (iter_trans htables (n := 1) henabled)), rfl, rfl, ?_, rfl, ?_⟩
  · show (c.esp - 4 + 4) % 2 ^ 32 = c.esp
    omega
  · show c.stored ++ _ ++ _ = _
    rw [h.stored, List.nil_append, storedBy]

/-! ## What the walk finds -/

variable {esp : Nat}

theorem load32_pde (m : ByteMem) (esp : Nat) {i : Nat} (hi : i < n) (hn : n ≤ 1024) :
    (paged m esp n).load32 (PageDirBase + 4 * i) =
      PageTblBase + 4096 * i + 7 := by
  rw [paged, load32_fill_apart (by rw [PageDirBase, PageTblBase]; omega),
    load32_fill hi (by rw [PDE₀_eq, PageTblBase]; omega), PDE₀_eq]
  omega

theorem load32_pte (m : ByteMem) (esp : Nat) {j : Nat} (hj : j < n * 1024) (hn : n ≤ 1024) :
    (paged m esp n).load32 (PageTblBase + 4 * j) = 4096 * j + 7 := by
  rw [paged, load32_fill hj (by rw [PTE₀_eq]; omega), PTE₀_eq]
  omega

/-- An entry that points to a page and has all three flags. -/
theorem entry_flags (page : Nat) (hpage : page % 4096 = 0) :
    frame (page + 7) = page ∧ present (page + 7) = true ∧
      user (page + 7) = true ∧ writable (page + 7) = true := by
  simp only [frame, present, user, writable, decide_eq_true_eq]
  omega

theorem walk_paged {address : Nat} (hn : n ≤ 1024)
    (haddress : address < n * 0x400000) :
    walk (paged m esp n) PageDirBase address = some ⟨address, true, true⟩ := by
  have hpde := load32_pde m esp
    (i := address / 2 ^ 22) (by omega) hn
  have hpte := load32_pte m esp
    (j := address / 2 ^ 12) (by omega) hn
  obtain ⟨hframe, hpresent, huser, hwritable⟩ := entry_flags
    (PageTblBase + 4096 * (address / 2 ^ 22)) (by rw [PageTblBase]; omega)
  obtain ⟨hframe', hpresent', huser', hwritable'⟩ := entry_flags
    (4096 * (address / 2 ^ 12)) (by omega)
  have hslot : PageTblBase + 4096 * (address / 2 ^ 22) +
      4 * (address / 2 ^ 12 % 1024) = PageTblBase + 4 * (address / 2 ^ 12) := by
    omega
  have hcr3 : frame PageDirBase = PageDirBase := by decide
  have hoffset : 4096 * (address / 2 ^ 12) + address % 2 ^ 12 = address := by
    omega
  simp only [walk, hcr3, hpde, hframe, hslot, hpte, hframe', hpresent,
    hpresent', huser, huser', hwritable, hwritable', hoffset, not_true,
    if_false, Bool.and_self]

/-- Two words without a common byte. -/
def Apart (a b : Nat) : Prop := a + 4 ≤ b ∨ b + 4 ≤ a

theorem pairwise_words (base n : Nat) :
    ((List.range n).map (base + 4 * ·)).Pairwise Apart := by
  rw [List.pairwise_map]
  refine List.pairwise_lt_range.imp fun hlt => Or.inl ?_
  omega

theorem pairwise_storedBy (hn : n ≤ 1024) : (storedBy n).Pairwise Apart := by
  refine List.pairwise_append.mpr
    ⟨pairwise_words _ _, pairwise_words _ _, ?_⟩
  intro a ha b hb
  obtain ⟨i, hi, rfl⟩ := List.mem_map.mp ha
  obtain ⟨j, -, rfl⟩ := List.mem_map.mp hb
  rw [List.mem_range] at hi
  left
  rw [PageDirBase, PageTblBase]
  omega

/-- Nothing but the tables and the word on the stack is written. -/
theorem byte_paged {b : Nat} (hstack : b < esp - 4 ∨ esp ≤ b)
    (hesp : 4 ≤ esp)
    (htables : b < PageDirBase ∨ PageTblBase + n * 4096 ≤ b) :
    (paged m esp n).byte b = m.byte b := by
  rw [PageDirBase, PageTblBase] at htables
  rw [paged, fill_apart (by rw [PageTblBase]; omega),
    fill_apart (by rw [PageDirBase]; omega),
    ByteMem.store32_apart (by omega)]

/-- For every memory size `SetupPaging` returns with paging on, every address
below the size translated to itself, present, user and writable, no two stores
to the directory and the tables overlapping, and nothing else written than a
word of the stack. -/
theorem setupPaging_identity (h : AtCall dwMemSize memSize c)
    (hpos : 0 < memSize) (hlt : memSize < 2 ^ 32) : ∃ k d,
      iter (Cpu.step dwMemSize) k c = some d ∧ d.label = .ret ∧
        d.cr3 = PageDirBase ∧ d.esp = c.esp ∧
        (∀ address < memSize,
          walk d.mem d.cr3 address = some ⟨address, true, true⟩) ∧
        d.stored.Pairwise Apart ∧
        ∀ b, b < c.esp - 4 ∨ c.esp ≤ b → b < PageDirBase ∨
          PageTblBase + tables memSize * 4096 ≤ b →
            d.mem.byte b = c.mem.byte b := by
  obtain ⟨-, hn, hcover⟩ := tables_bounds hpos hlt
  obtain ⟨k, d, hrun, hlabel, hcr3, hesp, hmem, hstored⟩ := h.run hpos hlt
  refine ⟨k, d, hrun, hlabel, hcr3, hesp, ?_, ?_, ?_⟩
  · intro address haddress
    rw [hmem, hcr3]
    exact walk_paged hn (by omega)
  · rw [hstored]
    exact pairwise_storedBy hn
  · intro b hstack htables
    rw [hmem]
    exact byte_paged hstack (Nat.le_trans (Nat.le_add_left ..) h.stack) htables

/-- A processor with 5M of memory, and so two page tables. -/
def fiveMegabytes : Cpu :=
  ⟨.SetupPaging, 0, 0, 0, 0, 0, 0x95000, 0, 0,
    ⟨fun b => if b = 0x92002 then 0x50 else 0⟩, []⟩

theorem setupPaging_identity_five : ∃ k d,
    iter (Cpu.step 0x92000) k fiveMegabytes = some d ∧ d.label = .ret ∧
      ∀ address < 0x500000,
        walk d.mem d.cr3 address = some ⟨address, true, true⟩ := by
  have hcall : AtCall 0x92000 0x500000 fiveMegabytes :=
    ⟨rfl, by decide, by decide, by decide, rfl⟩
  obtain ⟨k, d, hrun, hlabel, -, -, hwalk, -⟩ :=
    setupPaging_identity hcall (by decide) (by decide)
  exact ⟨k, d, hrun, hlabel, hwalk⟩

end LearningLinux.Boot
