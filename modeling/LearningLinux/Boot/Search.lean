import LearningLinux.Boot.LoadFile
import Mathlib.Data.Nat.Find

/-!
# The search in the root directory

Its three loops, over sectors, entries and characters, are counted by
`wRootDirSizeForLoop`, `dx` and `cx`. Each has an invariant that says which
sector is in the buffer, which entry `di` is on and how much of the name has
been compared.
-/

namespace LearningLinux.Loader

open LearningLinux.Lib LearningLinux.Lib.ByteMem

variable {l : Layout} {bios : Bios} {image : Image} {m₀ : ByteMem} {c d : Cpu}
  {k t j : Nat}

/-! ## The root directory -/

/-- The first byte of an entry, of which there are 16 in a sector. -/
def rootEntry (e : Nat) : Nat := SectorNoOfRootDirectory * 512 + e * 32

def entryBytes (image : Image) (e : Nat) : List UInt8 :=
  (List.range 32).map fun i => image (rootEntry e + i)

def IsKernel (image : Image) (e : Nat) : Prop :=
  (entryBytes image e).take 11 = kernelName

instance (image : Image) (e : Nat) : Decidable (IsKernel image e) :=
  inferInstanceAs (Decidable (_ = _))

def firstCluster (image : Image) (e : Nat) : Nat :=
  (image (rootEntry e + 26)).toNat + 2 ^ 8 * (image (rootEntry e + 27)).toNat

theorem isKernel_iff {e : Nat} : IsKernel image e ↔
    ∀ i (h : i < kernelName.length), image (rootEntry e + i) = kernelName[i] := by
  have hlength : ((entryBytes image e).take 11).length = kernelName.length := by
    rw [List.length_take, entryBytes, List.length_map, List.length_range]
    rfl
  have hget {i : Nat} (h : i < ((entryBytes image e).take 11).length) :
      ((entryBytes image e).take 11)[i] = image (rootEntry e + i) := by
    simp only [List.getElem_take, entryBytes, List.getElem_map,
      List.getElem_range]
  constructor
  · intro h i hi
    rw [← hget (hlength ▸ hi)]
    simp only [show (entryBytes image e).take 11 = kernelName from h]
  · intro h
    refine List.ext_getElem hlength fun i hi hi' => ?_
    rw [hget hi, h i hi']

/-! ## Invariants -/

/-- `LABEL_SEARCH_IN_ROOT_DIR_BEGIN`, with `k` sectors searched. -/
structure AtSector (l : Layout) (m₀ : ByteMem) (k : Nat) (c : Cpu) : Prop where
  label : c.label = .SEARCH_IN_ROOT_DIR_BEGIN
  sp : c.sp = 0x100
  size : c.mem.load16 (ds l.wRootDirSizeForLoop) + k = RootDirSectors
  sectorNo : c.mem.load16 (ds l.wSectorNo) = SectorNoOfRootDirectory + k
  outside : Outside (Owned l 1) m₀ c.mem

/-- What stays while a sector is searched. -/
structure InSector (l : Layout) (image : Image) (m₀ : ByteMem) (k : Nat)
    (c : Cpu) : Prop where
  sp : c.sp = 0x100
  es : c.es = 0x8000
  size : c.mem.load16 (ds l.wRootDirSizeForLoop) + (k + 1) = RootDirSectors
  sectorNo : c.mem.load16 (ds l.wSectorNo) = SectorNoOfRootDirectory + k
  buffer : ∀ i < 512, c.mem.byte (0x80000 + i) =
    image ((SectorNoOfRootDirectory + k) * 512 + i)
  outside : Outside (Owned l 1) m₀ c.mem

/-- `LABEL_SEARCH_FOR_KERNELBIN`, with `t` entries of the sector compared. -/
structure AtEntry (l : Layout) (image : Image) (m₀ : ByteMem) (k t : Nat)
    (c : Cpu) : Prop extends InSector l image m₀ k c where
  label : c.label = .SEARCH_FOR_KERNELBIN
  dx : c.dx + t = 16
  si : c.si = l.KernelFileName
  di : c.di = t * 32

/-- `LABEL_CMP_FILENAME`, with `j` characters found equal. -/
structure AtChar (l : Layout) (image : Image) (m₀ : ByteMem) (k t j : Nat)
    (c : Cpu) : Prop extends InSector l image m₀ k c where
  label : c.label = .CMP_FILENAME
  dx : c.dx + (t + 1) = 16
  cx : c.cx + j = 11
  si : c.si = l.KernelFileName + j
  di : c.di = t * 32 + j

/-- `LABEL_FILENAME_FOUND`, with `di` behind the name. -/
structure AtFound (l : Layout) (image : Image) (m₀ : ByteMem) (k t : Nat)
    (c : Cpu) : Prop extends InSector l image m₀ k c where
  label : c.label = .FILENAME_FOUND
  di : c.di = t * 32 + 11

/-! ## One step each -/

/-- The next entry, or the end of the sector. -/
theorem step_entry (h : AtEntry l image m₀ k t c) (ht : t < 16) :
    ∃ d, c.step l bios = some d ∧ AtChar l image m₀ k t 0 d := by
  have hdx := h.dx
  have hdx₀ : ¬ c.dx = 0 := by omega
  have hstep : c.step l bios =
      some { c with label := .CMP_FILENAME, cx := 11, dx := c.dx - 1 } := by
    rw [Cpu.step, h.label]
    dsimp only
    rw [if_neg hdx₀]
  refine ⟨_, hstep, ⟨h.sp, h.es, h.size, h.sectorNo, h.buffer, h.outside⟩, rfl,
    ?_, rfl, h.si, h.di⟩
  dsimp only
  omega

theorem ds_wSectorNo (l : Layout) : ds l.wSectorNo = 0x90000 + l.vars + 2 := by
  have hvars := l.vars_lt
  rw [Layout.wSectorNo, ds_eq (by omega), Nat.add_assoc]

theorem ds_wRootDirSizeForLoop (l : Layout) :
    ds l.wRootDirSizeForLoop = 0x90000 + l.vars := by
  have hvars := l.vars_lt
  rw [Layout.wRootDirSizeForLoop, ds_eq (by omega)]

/-- The two counters are apart, and the loader's own. -/
theorem store_counter {m : ByteMem} {a b v : Nat} (hv : v < 2 ^ 16)
    (hab : a = ds l.wSectorNo ∧ b = ds l.wRootDirSizeForLoop ∨
      a = ds l.wRootDirSizeForLoop ∧ b = ds l.wSectorNo)
    (hout : Outside (Owned l 1) m₀ m) :
    (m.store16 a v).load16 b = m.load16 b ∧ (m.store16 a v).load16 a = v ∧
      Outside (Owned l 1) m₀ (m.store16 a v) := by
  rw [ds_wSectorNo, ds_wRootDirSizeForLoop] at hab
  refine ⟨load16_store16_apart (by omega), ?_,
    hout.trans (outside_store16 (fun b hle hlt => ?_) _ _)⟩
  · rw [load16_store16_same, Nat.mod_eq_of_lt hv]
  · rw [Owned]
    omega

/-- With all entries compared the search goes on to the next sector. -/
theorem step_sector_end (h : AtEntry l image m₀ k 16 c) (hk : k < 14) :
    ∃ d, Reaches (Cpu.step l bios) c d ∧ AtSector l m₀ (k + 1) d := by
  have hdx := h.dx
  have hdx₀ : c.dx = 0 := by omega
  have hnext : add16 (c.mem.load16 (ds l.wSectorNo)) 1 =
      SectorNoOfRootDirectory + (k + 1) := by
    rw [h.sectorNo, SectorNoOfRootDirectory, add16_eq (by omega)]
    omega
  obtain ⟨hsize, hsectorNo, hout⟩ := store_counter
    (v := SectorNoOfRootDirectory + (k + 1))
    (by rw [SectorNoOfRootDirectory]; omega) (Or.inl ⟨rfl, rfl⟩) h.outside
  have hgoto : c.step l bios = some (c.goto .GOTO_NEXT_SECTOR_IN_ROOT_DIR) := by
    rw [Cpu.step, h.label]
    dsimp only
    rw [if_pos hdx₀]
  have hstep : (c.goto .GOTO_NEXT_SECTOR_IN_ROOT_DIR).step l bios = some { c with
      label := .SEARCH_IN_ROOT_DIR_BEGIN
      mem := c.mem.store16 (ds l.wSectorNo) (SectorNoOfRootDirectory + (k + 1)) } := by
    rw [← hnext]
    rfl
  refine ⟨_, (Reaches.single hgoto).trans (Reaches.single hstep), rfl, h.sp, ?_,
    hsectorNo, hout⟩
  dsimp only
  rw [hsize, h.size]

theorem step_found (h : AtChar l image m₀ k t 11 c) :
    ∃ d, c.step l bios = some d ∧ AtFound l image m₀ k t d := by
  have hcx := h.cx
  have hcx₀ : c.cx = 0 := by omega
  have hgoto : c.step l bios = some (c.goto .FILENAME_FOUND) := by
    rw [Cpu.step, h.label]
    dsimp only
    rw [if_pos hcx₀]
  exact ⟨_, hgoto, ⟨h.sp, h.es, h.size, h.sectorNo, h.buffer, h.outside⟩, rfl,
    h.di⟩

/-- The bytes that `LABEL_CMP_FILENAME` compares. -/
theorem char_bytes (hconsts : Consts l m₀) (h : AtChar l image m₀ k t j c)
    (ht : t < 16) (hj : j < kernelName.length) :
    c.mem.byte (ds c.si) = kernelName[j] ∧
      c.mem.byte (phys c.es c.di) = image (rootEntry (k * 16 + t) + j) := by
  have hlength : kernelName.length = 11 := rfl
  have hvars := l.vars_lt
  constructor
  · have hname := (consts_of_owned hconsts h.outside (by decide)).name j hj
    rw [← hname, h.si, Layout.KernelFileName, ds_eq (by omega), ds_eq (by omega),
      ← Nat.add_assoc 0x90000]
  · have hphys : phys c.es c.di = 0x80000 + (t * 32 + j) := by
      rw [h.es, h.di, phys, Nat.mod_eq_of_lt (by omega)]
    have hoffset : (SectorNoOfRootDirectory + k) * 512 + (t * 32 + j) =
        SectorNoOfRootDirectory * 512 + (k * 16 + t) * 32 + j := by omega
    rw [hphys, h.buffer _ (by omega), rootEntry, hoffset]

/-- An equal character. -/
theorem step_char_eq (hconsts : Consts l m₀) (h : AtChar l image m₀ k t j c)
    (ht : t < 16) (hj : j < kernelName.length)
    (heq : image (rootEntry (k * 16 + t) + j) = kernelName[j]) :
    ∃ d, c.step l bios = some d ∧ AtChar l image m₀ k t (j + 1) d := by
  have hlength : kernelName.length = 11 := rfl
  have hvars := l.vars_lt
  have hcx := h.cx
  have hcx₀ : ¬ c.cx = 0 := by omega
  obtain ⟨hname, hentry⟩ := char_bytes hconsts h ht hj
  have hbyte : c.mem.load8 (ds c.si) = c.mem.load8 (phys c.es c.di) := by
    rw [load8, load8, hname, hentry, heq]
  have hsi : add16 c.si 1 = l.KernelFileName + (j + 1) := by
    rw [h.si, Layout.KernelFileName, add16_eq (by omega)]
    omega
  have hdi : add16 c.di 1 = t * 32 + (j + 1) := by
    rw [h.di, add16_eq (by omega)]
    omega
  have hstep : c.step l bios = some { c with
      ax := bytes (high c.ax) (c.mem.load8 (ds c.si))
      cx := c.cx - 1
      si := add16 c.si 1
      di := add16 c.di 1 } := by
    rw [Cpu.step, h.label]
    dsimp only
    rw [if_neg hcx₀, if_pos hbyte]
  refine ⟨_, hstep, ⟨h.sp, h.es, h.size, h.sectorNo, h.buffer, h.outside⟩,
    h.label, h.dx, ?_, hsi, hdi⟩
  dsimp only
  omega

/-- A different one. -/
theorem step_char_ne (hconsts : Consts l m₀) (h : AtChar l image m₀ k t j c)
    (ht : t < 16) (hj : j < kernelName.length)
    (hne : image (rootEntry (k * 16 + t) + j) ≠ kernelName[j]) :
    ∃ d, Reaches (Cpu.step l bios) c d ∧ AtEntry l image m₀ k (t + 1) d := by
  have hlength : kernelName.length = 11 := rfl
  have hcx := h.cx
  have hcx₀ : ¬ c.cx = 0 := by omega
  obtain ⟨hname, hentry⟩ := char_bytes hconsts h ht hj
  have hbyte : ¬ c.mem.load8 (ds c.si) = c.mem.load8 (phys c.es c.di) := by
    rw [load8, load8, hname, hentry]
    intro heq
    exact hne (UInt8.toNat_inj.mp heq).symm
  have hdi : add16 (c.di / 2 ^ 5 * 2 ^ 5) 0x20 = (t + 1) * 32 := by
    rw [h.di, add16_eq (by omega)]
    omega
  have hgoto : c.step l bios = some { c with
      label := .DIFFERENT
      ax := bytes (high c.ax) (c.mem.load8 (ds c.si))
      cx := c.cx - 1
      si := add16 c.si 1 } := by
    rw [Cpu.step, h.label]
    dsimp only
    rw [if_neg hcx₀, if_neg hbyte, Cpu.goto]
  refine ⟨_, (Reaches.single hgoto).trans (Reaches.single rfl),
    ⟨h.sp, h.es, h.size, h.sectorNo, h.buffer, h.outside⟩, rfl, h.dx, rfl, hdi⟩

/-- The state in which the search reads a sector. -/
def searchRequest (l : Layout) (c : Cpu) : Cpu :=
  let m := c.mem.store16 (ds l.wRootDirSizeForLoop)
    (c.mem.load16 (ds l.wRootDirSizeForLoop) - 1)
  { c with
    ax := m.load16 (ds l.wSectorNo)
    bx := OffsetOfKernelFile
    cx := bytes (high c.cx) 1
    es := BaseOfKernelFile
    mem := m }

theorem step_search (h : c.label = .SEARCH_IN_ROOT_DIR_BEGIN)
    (hsize : ¬ c.mem.load16 (ds l.wRootDirSizeForLoop) = 0) :
    c.step l bios =
      ((searchRequest l c).call (l.ip .search) (readSector l bios)).map
        fun c => { c with
          label := .SEARCH_FOR_KERNELBIN
          dx := 0x10
          si := l.KernelFileName
          di := OffsetOfKernelFile } := by
  cases c
  cases h
  exact if_neg hsize

/-- A sector is read, over the last one. -/
theorem step_sector (hbios : bios.Serves image) (hconsts : Consts l m₀)
    (h : AtSector l m₀ k c) (hk : k < 14) :
    ∃ d, c.step l bios = some d ∧ AtEntry l image m₀ k 0 d := by
  have hsize := h.size
  have hsp : (searchRequest l c).sp = 0x100 := h.sp
  have hlayout := l.bounds
  rw [RootDirSectors] at hsize
  have hsize₀ : ¬ c.mem.load16 (ds l.wRootDirSizeForLoop) = 0 := by omega
  obtain ⟨hsectorNo, hsize₁, hout₁⟩ := store_counter
    (v := c.mem.load16 (ds l.wRootDirSizeForLoop) - 1) (by omega)
    (Or.inr ⟨rfl, rfl⟩) h.outside
  have hax : (searchRequest l c).ax = SectorNoOfRootDirectory + k :=
    hsectorNo.trans h.sectorNo
  have hbx : (searchRequest l c).bx = 0 := rfl
  have hes : (searchRequest l c).es = 0x8000 := rfl
  have hlow : low (searchRequest l c).cx = 1 := low_bytes (by decide)
  have hconsts₁ := consts_of_owned hconsts hout₁ (by decide)
  rw [SectorNoOfRootDirectory] at hax
  obtain ⟨d, hd, hread⟩ := call_readSector hbios .search hlow
    hconsts₁.secPerTrk hconsts₁.drvNum (by omega) (by omega) (by omega)
    (by rw [hes, hbx]; decide) (by omega) (by omega)
  have hdata := hread.data
  have hout := hread.outside
  rw [hax, hbx, hes] at hdata
  rw [hbx, hes, hsp] at hout
  have hkept {a : Nat} (ha : 0x90100 ≤ a) : d.mem.load16 a =
      (searchRequest l c).mem.load16 a := by
    refine hout.load16 ?_ ?_
    all_goals
      rw [Stack]
      omega
  have hstep : c.step l bios = some { d with
      label := .SEARCH_FOR_KERNELBIN
      dx := 0x10
      si := l.KernelFileName
      di := OffsetOfKernelFile } := by
    rw [step_search h.label hsize₀, hd, Option.map_some]
  refine ⟨_, hstep, ⟨hread.sp.trans hsp, hread.es.trans hes, ?_, ?_, hdata, ?_⟩,
    rfl, rfl, rfl, rfl⟩
  · dsimp only
    rw [hkept (by rw [ds_wRootDirSizeForLoop]; omega)]
    refine (congrArg (· + (k + 1)) hsize₁).trans ?_
    rw [RootDirSectors]
    omega
  · dsimp only
    rw [hkept (by rw [ds_wSectorNo]; omega)]
    exact hsectorNo.trans h.sectorNo
  · refine hout₁.trans (hout.mono fun b hb => ?_)
    rcases hb with hbuffer | hstack
    · exact Or.inl (by omega)
    · exact owned_of_stack (by decide) hstack

/-! ## Loops -/

/-- As many characters as are equal. -/
theorem compare_equal {n : Nat} (hconsts : Consts l m₀)
    (h : AtChar l image m₀ k t 0 c) (ht : t < 16) (hn : n ≤ kernelName.length)
    (heq : ∀ i < n, ∀ hi : i < kernelName.length,
      image (rootEntry (k * 16 + t) + i) = kernelName[i]) :
    ∃ d, Reaches (Cpu.step l bios) c d ∧ AtChar l image m₀ k t n d := by
  refine Reaches.count h fun i hi d hd => ?_
  have hi' : i < kernelName.length := Nat.lt_of_lt_of_le hi hn
  obtain ⟨e, hstep, he⟩ := step_char_eq hconsts hd ht hi' (heq i hi hi')
  exact ⟨e, Reaches.single hstep, he⟩

/-- An entry that has another name is passed over at its first different
character. -/
theorem skip_entry (hconsts : Consts l m₀) (ht : t < 16)
    (hnot : ¬ IsKernel image (k * 16 + t)) (h : AtEntry l image m₀ k t c) :
    ∃ d, Reaches (Cpu.step l bios) c d ∧ AtEntry l image m₀ k (t + 1) d := by
  have hdiff : ∃ i, ∃ hi : i < kernelName.length,
      image (rootEntry (k * 16 + t) + i) ≠ kernelName[i] := by
    rw [isKernel_iff] at hnot
    push Not at hnot
    exact hnot
  obtain ⟨hi, hne⟩ := Nat.find_spec hdiff
  have heq : ∀ i < Nat.find hdiff, ∀ hi : i < kernelName.length,
      image (rootEntry (k * 16 + t) + i) = kernelName[i] := by
    intro i hlt hi
    by_contra hne
    exact Nat.find_min hdiff hlt ⟨hi, hne⟩
  obtain ⟨d, hstep, hd⟩ := step_entry h ht
  obtain ⟨e, hde, he⟩ := compare_equal hconsts hd ht (Nat.le_of_lt hi) heq
  obtain ⟨f, hef, hf⟩ := step_char_ne hconsts he ht hi hne
  exact ⟨f, ((Reaches.single hstep).trans hde).trans hef, hf⟩

theorem find_entry (hconsts : Consts l m₀) (ht : t < 16)
    (hname : IsKernel image (k * 16 + t)) (h : AtEntry l image m₀ k t c) :
    ∃ d, Reaches (Cpu.step l bios) c d ∧ AtFound l image m₀ k t d := by
  obtain ⟨d, hstep, hd⟩ := step_entry h ht
  obtain ⟨e, hde, he⟩ := compare_equal hconsts hd ht (Nat.le_refl _)
    fun i _ hi => isKernel_iff.mp hname i hi
  obtain ⟨f, hstep', hf⟩ := step_found he
  exact ⟨f, ((Reaches.single hstep).trans hde).trans (Reaches.single hstep'),
    hf⟩

theorem skip_entries (hconsts : Consts l m₀) (ht : t ≤ 16)
    (hnot : ∀ i < t, ¬ IsKernel image (k * 16 + i))
    (h : AtEntry l image m₀ k 0 c) :
    ∃ d, Reaches (Cpu.step l bios) c d ∧ AtEntry l image m₀ k t d :=
  Reaches.count h fun i hi _ hd =>
    skip_entry hconsts (Nat.lt_of_lt_of_le hi ht) (hnot i hi) hd

theorem skip_sector (hbios : bios.Serves image) (hconsts : Consts l m₀)
    (hk : k < 14) (hnot : ∀ i < 16, ¬ IsKernel image (k * 16 + i)) (h : AtSector l m₀ k c) :
    ∃ d, Reaches (Cpu.step l bios) c d ∧ AtSector l m₀ (k + 1) d := by
  obtain ⟨d, hstep, hd⟩ := step_sector hbios hconsts h hk
  obtain ⟨e, hde, he⟩ := skip_entries hconsts (Nat.le_refl 16) hnot hd
  obtain ⟨f, hef, hf⟩ := step_sector_end he hk
  exact ⟨f, ((Reaches.single hstep).trans hde).trans hef, hf⟩

/-- The search stops at the first entry with the name. -/
theorem search_run {e : Nat} (hbios : bios.Serves image)
    (hconsts : Consts l m₀) (he : e < 224) (hname : IsKernel image e) (hfirst : ∀ i < e, ¬ IsKernel image i)
    (h : AtSector l m₀ 0 c) : ∃ d, Reaches (Cpu.step l bios) c d ∧
      AtFound l image m₀ (e / 16) (e % 16) d := by
  have he' : e / 16 * 16 + e % 16 = e := by omega
  have ht : e % 16 < 16 := by omega
  obtain ⟨d, hcd, hd⟩ : ∃ d, Reaches (Cpu.step l bios) c d ∧
      AtSector l m₀ (e / 16) d :=
    Reaches.count h fun k hk _ hd =>
      skip_sector hbios hconsts (by omega) (fun i hi => hfirst _ (by omega)) hd
  obtain ⟨f, hstep, hf⟩ := step_sector hbios hconsts hd (by omega)
  obtain ⟨g, hfg, hg⟩ := skip_entries hconsts (Nat.le_of_lt ht)
    (fun i hi => hfirst _ (by omega)) hf
  obtain ⟨s, hgs, hs⟩ := find_entry hconsts ht (he'.symm ▸ hname) hg
  exact ⟨s, ((hcd.trans (Reaches.single hstep)).trans hfg).trans hgs, hs⟩

/-! ## From the search to the loading loop -/

/-- The memory after `LABEL_FILENAME_FOUND`, but for the cluster pushed. -/
def foundFrame (l : Layout) (t : Nat) (c : Cpu) : ByteMem :=
  (c.mem.store32 0x900fc (c.eaxh * 2 ^ 16 + RootDirSectors)).store32
    (0x90000 + l.dwKernelSize)
    ((c.mem.store32 0x900fc (c.eaxh * 2 ^ 16 + RootDirSectors)).load32
      (0x80000 + (t * 32 + 0x1c)))

theorem outside_foundFrame : Outside (fun b => Stack 0xfc 0x100 b ∨
    (0x90000 + l.vars + 5 ≤ b ∧ b < 0x90000 + l.vars + 9)) c.mem
      (foundFrame l t c) := by
  refine Outside.trans (outside_store32 ?_ _ _) (outside_store32 ?_ _ _)
  · intro b hle hlt
    rw [Stack]
    omega
  · intro b hle hlt
    rw [Layout.dwKernelSize] at hle hlt
    omega

/-- `eax` survives the copy of the file size. -/
theorem foundFrame_eax : (foundFrame l t c).load32 0x900fc % 2 ^ 16 =
    RootDirSectors := by
  have hlayout := l.bounds
  rw [foundFrame, Layout.dwKernelSize, load32_store32_apart (by omega),
    load32_store32_mod, RootDirSectors]
  omega

theorem found_eq (hsp : c.sp = 0x100) (hes : c.es = 0x8000) (ht : t < 16)
    (hdi : c.di = t * 32 + 11) {cluster : Nat} (hcluster : 2 ≤ cluster ∧ cluster ≤ 2848)
    (hword : (foundFrame l t c).load16 (0x80000 + (t * 32 + 0x1a)) = cluster) :
    ∃ eaxh, found l c = { c with
      label := .GOON_LOADING_FILE
      eaxh := eaxh
      ax := dataSector cluster
      bx := 0
      cx := dataSector cluster
      di := t * 32 + 0x1a
      sp := 0xfe
      es := 0x8000
      mem := (foundFrame l t c).store16 0x900fe cluster } := by
  have hvars := l.vars_lt
  have h₂ : sub16 0x100 2 = 0xfe := sub16_eq (by decide) (by decide)
  have h₄ : sub16 0x100 4 = 0xfc := sub16_eq (by decide) (by decide)
  have hds₂ : ds 0xfe = 0x900fe := ds_eq (by decide)
  have hds₄ : ds 0xfc = 0x900fc := ds_eq (by decide)
  have hdsSize : ds l.dwKernelSize = 0x90000 + l.dwKernelSize := by
    rw [Layout.dwKernelSize, ds_eq (by omega)]
  have hround : (t * 32 + 11) / 2 ^ 4 * 2 ^ 4 = t * 32 := by omega
  have hsize : phys 0x8000 (add16 (t * 32) 0x1c) =
      0x80000 + (t * 32 + 0x1c) := by
    rw [add16_eq (by omega), phys, Nat.mod_eq_of_lt (by omega)]
  have hoff : add16 (t * 32) 0x1a = t * 32 + 0x1a := add16_eq (by omega)
  have hfirst : phys 0x8000 (t * 32 + 0x1a) = 0x80000 + (t * 32 + 0x1a) := by
    rw [phys, Nat.mod_eq_of_lt (by omega)]
  refine ⟨(foundFrame l t c).load32 0x900fc / 2 ^ 16, ?_⟩
  simp only [found, hsp, hes, hdi, h₂, h₄, hds₂, hds₄, hdsSize, hround, hsize,
    hoff, hfirst]
  rw [← foundFrame, hword, foundFrame_eax, add16_sector hcluster]
  rfl

/-- The entry that was found starts the loading loop. -/
theorem loading_of_found {n : Nat} (hn : 1 ≤ n)
    (h : AtFound l image m₀ k t c) (ht : t < 16)
    (hcluster : 2 ≤ firstCluster image (k * 16 + t) ∧
      firstCluster image (k * 16 + t) ≤ 2848) :
    Loading l image n m₀ [] (firstCluster image (k * 16 + t)) (found l c) := by
  have hvars := l.vars_lt
  have hhead := l.header_lt
  have hout := outside_foundFrame (l := l) (t := t) (c := c)
  have hbyte {i : Nat} (hi : i < 32) :
      (foundFrame l t c).byte (0x80000 + (t * 32 + i)) =
        image (rootEntry (k * 16 + t) + i) := by
    have hoffset : (SectorNoOfRootDirectory + k) * 512 + (t * 32 + i) =
        SectorNoOfRootDirectory * 512 + (k * 16 + t) * 32 + i := by omega
    have hnot : ¬ (Stack 0xfc 0x100 (0x80000 + (t * 32 + i)) ∨
        (0x90000 + l.vars + 5 ≤ 0x80000 + (t * 32 + i) ∧
          0x80000 + (t * 32 + i) < 0x90000 + l.vars + 9)) := by
      rw [Stack]
      omega
    rw [hout _ hnot, h.buffer _ (by omega), hoffset, rootEntry]
  have hword : (foundFrame l t c).load16 (0x80000 + (t * 32 + 0x1a)) =
      firstCluster image (k * 16 + t) := by
    have hlow := hbyte (i := 26) (by decide)
    have hhigh := hbyte (i := 27) (by decide)
    rw [load16, load8, load8, Nat.add_assoc, Nat.add_assoc, hlow, hhigh,
      firstCluster]
  obtain ⟨eaxh, hfound⟩ := found_eq h.sp h.es ht h.di hcluster hword
  rw [hfound]
  refine ⟨rfl, rfl, rfl, rfl, rfl, ?_, ?_, ?_⟩
  · dsimp only
    rw [load16_store16_same]
    omega
  · intro i hi
    exact absurd hi (Nat.not_lt_zero i)
  · dsimp only
    refine (h.outside.mono fun b => Owned.mono hn).trans (Outside.trans
      (hout.mono fun b hb => ?_) (outside_store16 ?_ _ _))
    · rw [Stack] at hb
      rw [Owned, Stack, BaseOfStack]
      omega
    · intro b hle hlt
      rw [Owned, Stack, BaseOfStack]
      omega

/-! ## The loader -/

/-- `.MemChkOK`, where the search starts. -/
structure Started (l : Layout) (c : Cpu) : Prop where
  label : c.label = .MemChkOK
  sp : c.sp = BaseOfStack
  consts : Consts l c.mem
  size : c.mem.load16 (ds l.wRootDirSizeForLoop) = RootDirSectors

theorem step_start (hbios : bios.Serves image) (h : Started l c) :
    ∃ d, c.step l bios = some d ∧ AtSector l c.mem 0 d := by
  have hlayout := l.bounds
  have hsp : c.sp = 0x100 := h.sp
  obtain ⟨hsize, hsectorNo, hout⟩ := store_counter
    (v := SectorNoOfRootDirectory) (by decide) (Or.inl ⟨rfl, rfl⟩)
    (Outside.refl (Owned l 1) c.mem)
  have hreset := hbios.reset c.sp
    (c.mem.store16 (ds l.wSectorNo) SectorNoOfRootDirectory)
  have hkept {a : Nat} (ha : 0x90100 ≤ a) :
      (bios.reset c.sp (c.mem.store16 (ds l.wSectorNo)
        SectorNoOfRootDirectory)).load16 a =
        (c.mem.store16 (ds l.wSectorNo) SectorNoOfRootDirectory).load16 a := by
    refine hreset.load16 ?_ ?_
    all_goals
      rw [Stack]
      omega
  have hstep : c.step l bios = some { c with
      label := .SEARCH_IN_ROOT_DIR_BEGIN
      ax := low c.ax
      dx := bytes (high c.dx) 0
      mem := bios.reset c.sp
        (c.mem.store16 (ds l.wSectorNo) SectorNoOfRootDirectory) } := by
    rw [Cpu.step, h.label]
  refine ⟨_, hstep, rfl, h.sp, ?_, ?_, ?_⟩
  · dsimp only
    rw [hkept (by rw [ds_wRootDirSizeForLoop]; omega), hsize, h.size,
      Nat.add_zero]
  · dsimp only
    rw [hkept (by rw [ds_wSectorNo]; omega)]
    exact hsectorNo
  · exact hout.trans (hreset.mono fun b => owned_of_stack (by omega))

/-- The first entry with the name of the kernel is found, and then its file is
loaded: the sectors of the chain one after the other, and nothing else
changed. -/
theorem loader_loads_file {e : Nat} {chain : List Nat}
    (hbios : bios.Serves image) (h : Started l c) (he : e < 224)
    (hname : IsKernel image e) (hfirst : ∀ i < e, ¬ IsKernel image i)
    (hchain : Chain image (firstCluster image e) chain)
    (hlength : chain.length ≤ 128) :
    ∃ f s, Reaches (Cpu.step l bios) c f ∧ f.label = .FILENAME_FOUND ∧
      f.mem.Holds (f.es * 16 + f.di - 11) (entryBytes image e) ∧
      Reaches (Cpu.step l bios) f s ∧ s.label = .FILE_LOADED ∧
      s.mem.Holds 0x80000 (chain.flatMap (sectorBytes image)) ∧
      Outside (Owned l chain.length) c.mem s.mem := by
  have he' : e / 16 * 16 + e % 16 = e := by omega
  have ht : e % 16 < 16 := by omega
  obtain ⟨d, hstep, hd⟩ := step_start hbios h
  obtain ⟨f, hdf, hf⟩ := search_run hbios h.consts he hname hfirst hd
  have hloading := loading_of_found (n := chain.length) hchain.length_pos hf ht
    (he'.symm ▸ hchain.range)
  rw [he'] at hloading
  obtain ⟨s, hs, hlabel, hfile, hout⟩ := loading_run hbios h.consts hlength hchain
    hloading (Nat.zero_add _)
  have hfound : f.step l bios = some (found l f) := by
    rw [Cpu.step, hf.label]
  refine ⟨f, s, (Reaches.single hstep).trans hdf, hf.label, ?_,
    (Reaches.single hfound).trans hs, hlabel, hfile, hout⟩
  intro i hi
  rw [entryBytes, List.length_map, List.length_range] at hi
  have haddress : f.es * 16 + f.di - 11 + i = 0x80000 + (e % 16 * 32 + i) := by
    rw [hf.es, hf.di]
    omega
  have hoffset : (SectorNoOfRootDirectory + e / 16) * 512 + (e % 16 * 32 + i) =
      SectorNoOfRootDirectory * 512 + e * 32 + i := by omega
  simp only [entryBytes, List.getElem_map, List.getElem_range]
  rw [haddress, hf.buffer _ (by omega), hoffset, rootEntry]

/-- Variables behind a program of half a kilobyte. -/
def smallLayout : Layout where
  header := 0x103
  vars := 0x300
  ip
    | .search => 0x210
    | .load => 0x250
    | .fat => 0x254
    | .fatSector => 0x2a0
  header_pos := by decide
  header_lt := by decide
  vars_lt := by decide
  ip_lt := by
    intro site
    cases site <;> decide

/-- A disk with the kernel in entry 16, its clusters being 2 and 341. The
second entry of the FAT lies in two sectors. -/
def smallImage : Image := fun a =>
  if a = 515 then 0x55
  else if a = 516 then 0x01
  else if a = 1023 then 0xf0
  else if a = 1024 then 0xff
  else if a = 10266 then 2
  else if 10240 ≤ a then kernelName.getD (a - 10240) 0
  else 0

def smallMem : ByteMem where
  byte a :=
    if a = 0x9010c then 2
    else if a = 0x90118 then 18
    else if a = 0x90300 then 14
    else if 0x90309 ≤ a then kernelName.getD (a - 0x90309) 0
    else 0

def smallStart : Cpu where
  label := .MemChkOK
  eaxh := 0
  ax := 0
  bx := 0
  cx := 0
  dx := 0
  si := 0
  di := 0
  bp := 0
  sp := 0x100
  es := 0x9000
  mem := smallMem

theorem consts_small : Consts smallLayout smallMem := by
  refine ⟨?_, ?_, ?_, ?_⟩
  all_goals rw [ds_eq (by decide)]
  · decide
  · decide
  · decide
  · unfold Holds
    decide

/-- A BIOS that reads a sector at once, and fills the stack below `sp`. -/
def smallBios (image : Image) : Bios where
  int10 sp m := m.write 0x90000 sp fun _ => 0xcc
  reset sp m := m.write 0x90000 sp fun _ => 0xcc
  read r m :=
    if r.Legal then
      let m := m.write 0x90000 r.sp fun _ => 0xcc
      some (r.al, m.write r.buffer (r.al * 512) fun i =>
        image (r.sector * 512 + i))
    else none

theorem smallBios_serves (image : Image) : (smallBios image).Serves image := by
  have hfill (sp : Nat) (m : ByteMem) :
      Outside (Stack 0 sp) m (m.write 0x90000 sp fun _ => 0xcc) :=
    outside_write (fun b hle hlt => ⟨hle, hlt⟩) m _
  refine ⟨hfill, hfill, fun r m hlegal => ⟨_, _, if_pos hlegal, ?_, ?_⟩⟩
  · intro i hi
    exact write_inside hi
  · exact ((hfill r.sp m).mono fun b => Or.inr).trans
      (outside_write (fun b hle hlt => Or.inl ⟨hle, hlt⟩) _ _)

theorem loader_loads_file_small : ∃ f s,
    Reaches (Cpu.step smallLayout (smallBios smallImage)) smallStart f ∧
      f.label = .FILENAME_FOUND ∧
      f.mem.Holds (f.es * 16 + f.di - 11) (entryBytes smallImage 16) ∧
      Reaches (Cpu.step smallLayout (smallBios smallImage)) f s ∧
      s.label = .FILE_LOADED ∧
      s.mem.Holds 0x80000 ([2, 341].flatMap (sectorBytes smallImage)) ∧
      Outside (Owned smallLayout 2) smallMem s.mem := by
  have hstart : Started smallLayout smallStart := by
    refine ⟨rfl, rfl, consts_small, ?_⟩
    rw [ds_eq (by decide)]
    decide
  refine loader_loads_file (smallBios_serves smallImage) hstart (by decide)
    (by decide) (by decide) ?_ (by decide)
  exact Chain.next (by decide) (Chain.last (by decide) (by decide))

end LearningLinux.Loader
