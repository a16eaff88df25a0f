import LearningLinux.Boot.Subroutines

/-!
# What the loader leaves in memory

The sectors of the file lie in memory in the order of its cluster chain, and
besides them only the scratch area for the FAT, four variables and the stack
are written. Each loop has an invariant that is kept from one label to the
next.
-/

namespace LearningLinux.Loader

open LearningLinux.Lib LearningLinux.Lib.ByteMem

variable {l : Layout} {bios : Bios} {image : Image} {c d : Cpu}

/-! ## The loading loop -/

/-- Number and contents of the data sector of a cluster, which the root
directory is followed by. -/
def dataSector (cluster : Nat) : Nat :=
  SectorNoOfRootDirectory + RootDirSectors + (cluster - 2)

def sectorBytes (image : Image) (cluster : Nat) : List UInt8 :=
  (List.range 512).map fun i => image (dataSector cluster * 512 + i)

/-- Where the loader writes when it loads `n` sectors. -/
def Owned (l : Layout) (n b : Nat) : Prop :=
  (0x80000 ≤ b ∧ b < 0x80000 + n * 512) ∨ Scratch b ∨
    (0x90000 + l.vars ≤ b ∧ b < 0x90000 + l.vars + 9) ∨
      Stack 0 BaseOfStack b

theorem owned_of_stack {n lo hi b : Nat} (hhi : hi ≤ 0x100)
    (h : Stack lo hi b) : Owned l n b := by
  rw [Owned, Stack, BaseOfStack]
  rw [Stack] at h
  omega

theorem Owned.mono {m n b : Nat} (hmn : m ≤ n) (h : Owned l m b) :
    Owned l n b := by
  have hend : 0x80000 + m * 512 ≤ 0x80000 + n * 512 := by omega
  exact h.imp_left fun hfile => ⟨hfile.1, Nat.lt_of_lt_of_le hfile.2 hend⟩

/-- At `LABEL_GOON_LOADING_FILE`, with the sectors of `done` loaded and
`cluster` to be loaded next. -/
structure Loading (l : Layout) (image : Image) (n : Nat) (m₀ : ByteMem)
    (done : List Nat) (cluster : Nat) (c : Cpu) : Prop where
  label : c.label = .GOON_LOADING_FILE
  ax : c.ax = dataSector cluster
  bx : c.bx = done.length * 512
  sp : c.sp = 0xfe
  es : c.es = 0x8000
  saved : c.mem.load16 0x900fe = cluster
  file : c.mem.Holds 0x80000 (done.flatMap (sectorBytes image))
  outside : Outside (Owned l n) m₀ c.mem

/-- With the last sector of `done` just loaded, and `entry` in `ax`: the
number of that sector, then its entry in the FAT. -/
structure Loaded (l : Layout) (image : Image) (n : Nat) (m₀ : ByteMem)
    (done : List Nat) (entry : Nat) (c : Cpu) : Prop where
  ax : c.ax = entry
  bx : c.bx + 512 = done.length * 512
  sp : c.sp = 0x100
  es : c.es = 0x8000
  file : c.mem.Holds 0x80000 (done.flatMap (sectorBytes image))
  outside : Outside (Owned l n) m₀ c.mem

/-- How the code computes the sector of a cluster. -/
theorem add16_sector {cluster : Nat} (h : 2 ≤ cluster ∧ cluster ≤ 2848) :
    add16 (add16 cluster RootDirSectors) DeltaSectorNo = dataSector cluster := by
  rw [dataSector, SectorNoOfRootDirectory, RootDirSectors, DeltaSectorNo,
    add16_eq (show cluster + 14 < 2 ^ 16 by omega),
    add16_eq (show cluster + 14 + 17 < 2 ^ 16 by omega)]
  omega

theorem length_sectors (done : List Nat) :
    (done.flatMap (sectorBytes image)).length = done.length * 512 := by
  induction done with
  | nil => rfl
  | cons cluster done ih =>
      rw [List.flatMap_cons, List.length_append, ih, sectorBytes,
        List.length_map, List.length_range, List.length_cons]
      omega

theorem holds_sector {m : ByteMem} {a cluster : Nat}
    (h : ∀ i < 512, m.byte (a + i) = image (dataSector cluster * 512 + i)) :
    m.Holds a (sectorBytes image cluster) := by
  intro i hi
  rw [sectorBytes, List.length_map, List.length_range] at hi
  simp only [h i hi, sectorBytes, List.getElem_map, List.getElem_range]

theorem consts_of_owned {n : Nat} {m m' : ByteMem} (h : Consts l m)
    (hout : Outside (Owned l n) m m') (hn : n ≤ 128) : Consts l m' := by
  refine consts_of_outside h hout fun b hlo hvars => ?_
  rw [Owned, Scratch, Stack, BaseOfStack]
  omega

/-- The registers survive the output of a dot. -/
theorem loadRequest_eq {int10 : Nat → ByteMem → ByteMem}
    (hint10 : ∀ sp m, Outside (Stack 0 sp) m (int10 sp m))
    (hax : c.ax < 2 ^ 16) (hbx : c.bx < 2 ^ 16) (hsp : c.sp = 0xfe) :
    loadRequest int10 c =
      { c with
        cx := bytes (high c.cx) 1
        mem := (loadRequest int10 c).mem } ∧
      Outside (Stack 0 0xfe) c.mem (loadRequest int10 c).mem := by
  have h₂ : sub16 0xfe 2 = 0xfc := sub16_eq (by decide) (by decide)
  have h₄ : sub16 0xfc 2 = 0xfa := sub16_eq (by decide) (by decide)
  have hup : add16 0xfa 2 = 0xfc := add16_eq (by decide)
  have hds₂ : ds 0xfc = 0x900fc := ds_eq (by decide)
  have hds₄ : ds 0xfa = 0x900fa := ds_eq (by decide)
  have hdot := hint10 0xfa
    ((c.mem.store16 0x900fc c.ax).store16 0x900fa c.bx)
  have hpop_bx : (int10 0xfa ((c.mem.store16 0x900fc c.ax).store16 0x900fa
      c.bx)).load16 0x900fa = c.bx := by
    rw [hdot.load16, load16_store16_same, Nat.mod_eq_of_lt hbx]
    all_goals
      rw [Stack]
      decide
  have hpop_ax : (int10 0xfa ((c.mem.store16 0x900fc c.ax).store16 0x900fa
      c.bx)).load16 0x900fc = c.ax := by
    rw [hdot.load16, load16_store16_apart (by decide), load16_store16_same,
      Nat.mod_eq_of_lt hax]
    all_goals
      rw [Stack]
      decide
  constructor
  · simp only [loadRequest, Cpu.push, Cpu.top, Cpu.drop, hsp, h₂, h₄, hup, hds₂,
      hds₄, hpop_bx, hpop_ax]
  · simp only [loadRequest, Cpu.push, hsp, h₂, h₄, hds₂, hds₄]
    refine Outside.trans (Outside.trans (outside_store16 ?_ _ _)
      (outside_store16 ?_ _ _)) (hdot.mono fun b hb => ?_)
    · intro b hle hlt
      rw [Stack]
      omega
    · intro b hle hlt
      rw [Stack]
      omega
    · rw [Stack] at hb ⊢
      omega

section Step

variable {n cluster : Nat} {m₀ : ByteMem} {done : List Nat}
  (hbios : bios.Serves image) (hconsts : Consts l m₀) (hn : n ≤ 128)
  (hcluster : 2 ≤ cluster ∧ cluster ≤ 2848)

include hbios hconsts hn hcluster

/-- The first half of an iteration loads a sector. -/
theorem load_sector (h : Loading l image n m₀ done cluster c)
    (hroom : done.length < n) :
    ∃ d, (loadRequest bios.int10 c).call (l.ip .load) (readSector l bios) =
        some d ∧
      Loaded l image n m₀ (done ++ [cluster]) cluster
        { d.drop with ax := d.top } := by
  have hsector : dataSector cluster = cluster + 31 := by
    rw [dataSector, SectorNoOfRootDirectory, RootDirSectors]
    omega
  have hax : c.ax < 2 ^ 16 := by
    rw [h.ax]
    omega
  have hbx : c.bx < 2 ^ 16 := by
    rw [h.bx]
    omega
  obtain ⟨hrequest, hpushed⟩ := loadRequest_eq hbios.int10 hax hbx h.sp
  have howned : Outside (Owned l n) m₀ (loadRequest bios.int10 c).mem :=
    h.outside.trans (hpushed.mono fun b => owned_of_stack (by decide))
  have hconsts₁ := consts_of_owned hconsts howned hn
  have hlow : low (loadRequest bios.int10 c).cx = 1 := by
    rw [hrequest]
    exact low_bytes (by decide)
  have hax₁ : (loadRequest bios.int10 c).ax = dataSector cluster := by
    rw [hrequest, ← h.ax]
  have hbx₁ : (loadRequest bios.int10 c).bx = done.length * 512 := by
    rw [hrequest, ← h.bx]
  have hsp₁ : (loadRequest bios.int10 c).sp = 0xfe := by
    rw [hrequest, ← h.sp]
  have hes₁ : (loadRequest bios.int10 c).es = 0x8000 := by
    rw [hrequest, ← h.es]
  obtain ⟨d, hd, hread⟩ := call_readSector hbios .load hlow hconsts₁.secPerTrk
    hconsts₁.drvNum (by omega) (by omega) (by omega)
    (by rw [FitsDma, hes₁, hbx₁]; omega) (by omega) (by omega)
  have hdata := hread.data
  have hout := hread.outside
  have hbx₂ := hread.bx.trans hbx₁
  have hsp₂ := hread.sp.trans hsp₁
  have hes₂ := hread.es.trans hes₁
  rw [hax₁, hbx₁, hes₁] at hdata
  rw [hbx₁, hes₁, hsp₁] at hout
  have htop : d.top = cluster := by
    rw [top_eq (by omega), hsp₂, ← h.saved, hout.load16, hpushed.load16]
    all_goals
      rw [Stack]
      omega
  have hdrop : add16 d.sp 2 = 0x100 := by
    rw [hsp₂, add16_eq (by decide)]
  refine ⟨d, hd, htop, ?_, hdrop, hes₂, ?_, ?_⟩
  · rw [List.length_append, List.length_singleton, Nat.add_mul, Nat.one_mul,
      ← hbx₂]
    rfl
  · rw [List.flatMap_append, holds_append, length_sectors,
      List.flatMap_singleton]
    constructor
    · refine (h.file.outside hpushed fun b _ hlt => ?_).outside hout
        fun b _ hlt => ?_
      all_goals
        rw [length_sectors] at hlt
        rw [Stack]
        omega
    · exact holds_sector hdata
  · refine howned.trans (hout.mono fun b hb => ?_)
    rcases hb with hbuffer | hstack
    · exact Or.inl (by omega)
    · exact owned_of_stack (by decide) hstack

/-- The second half finds the entry of the sector. -/
theorem load_entry (h : Loaded l image n m₀ done cluster d)
    (hroom : done.length ≤ n) :
    ∃ e, d.call (l.ip .fat) (getFATEntry l bios) = some e ∧
      Loaded l image n m₀ done (fatEntry image cluster) e := by
  have hax := h.ax
  have hbx := h.bx
  have hsp := h.sp
  have hes := h.es
  obtain ⟨e, he, hfat⟩ := call_getFATEntry hbios
    (consts_of_owned hconsts h.outside hn) (by omega) (by omega) (by omega)
    (by omega) (by omega)
  have hout := hfat.outside
  rw [hsp] at hout
  refine ⟨e, he, ?_, ?_, hfat.sp.trans hsp, hfat.es.trans hes, ?_, ?_⟩
  · rw [hfat.ax, hax]
  · rw [hfat.bx, hbx]
  · refine h.file.outside hout fun b hle hlt => ?_
    rw [length_sectors] at hlt
    rw [Scratch, Stack]
    omega
  · refine h.outside.trans (hout.mono fun b hb => ?_)
    rw [Owned, Stack, Scratch, BaseOfStack]
    rw [Stack, Scratch, Layout.bOdd] at hb
    omega

/-- One iteration, up to the comparison with the end mark. -/
theorem loading_step (h : Loading l image n m₀ done cluster c)
    (hroom : done.length < n) :
    ∃ e, c.step l bios = some (loadNext l e) ∧
      Loaded l image n m₀ (done ++ [cluster]) (fatEntry image cluster) e := by
  obtain ⟨d, hd, hloaded⟩ := load_sector hbios hconsts hn hcluster h hroom
  have hlength : (done ++ [cluster]).length ≤ n := by
    rw [List.length_append, List.length_singleton]
    omega
  obtain ⟨e, he, hentry⟩ := load_entry hbios hconsts hn hcluster hloaded hlength
  refine ⟨e, ?_, hentry⟩
  rw [Cpu.step, h.label]
  dsimp only
  rw [hd, Option.bind_some, he, Option.map_some]

end Step

/-- The end mark ends the loop. -/
theorem loadNext_last {n : Nat} {m₀ : ByteMem} {done : List Nat}
    (h : Loaded l image n m₀ done 0xfff c) :
    loadNext l c = c.goto .FILE_LOADED :=
  if_pos h.ax

/-- Another entry is the next cluster. -/
theorem loadNext_next {n next : Nat} {m₀ : ByteMem} {done : List Nat}
    (hconsts : Consts l m₀) (hn : n ≤ 128) (hroom : done.length < n)
    (h : Loaded l image n m₀ done next c) (hnext : 2 ≤ next ∧ next ≤ 2848) :
    Loading l image n m₀ done next (loadNext l c) := by
  have hax := h.ax
  have hbx := h.bx
  have hsp : sub16 0x100 2 = 0xfe := sub16_eq (by decide) (by decide)
  have hds : ds 0xfe = 0x900fe := ds_eq (by decide)
  have hregs := sameRegs_push c next
  have hpushed := outside_push (c := c) (by rw [h.sp]; decide)
    (by rw [h.sp]; decide) next
  have hmem : (c.push next).mem = c.mem.store16 0x900fe next := by
    rw [Cpu.push, h.sp, hsp, hds]
  have hsp₁ : (c.push next).sp = 0xfe := by
    rw [Cpu.push, h.sp, hsp]
  rw [h.sp] at hpushed
  have howned : Outside (Owned l n) m₀ (c.push next).mem :=
    h.outside.trans (hpushed.mono fun b => owned_of_stack (by decide))
  have hsize := (consts_of_owned hconsts howned hn).bytsPerSec
  have hnot : ¬ next = 0xfff := by omega
  have hbuffer : add16 c.bx 512 = done.length * 512 := by
    rw [add16_eq (by omega), hbx]
  rw [loadNext, hax, if_neg hnot]
  dsimp only
  rw [hsize]
  refine ⟨rfl, ?_, ?_, hsp₁, hregs.es.trans h.es, ?_, ?_, howned⟩
  · dsimp only
    rw [hregs.ax, hax, add16_sector hnext]
  · dsimp only
    rw [hregs.bx, hbuffer]
  · dsimp only
    rw [hmem, load16_store16_same]
    omega
  · refine h.file.outside hpushed fun b _ hlt => ?_
    rw [length_sectors] at hlt
    rw [Stack]
    omega

/-- The data clusters of a file, from `cluster` to the end mark. -/
inductive Chain (image : Image) : Nat → List Nat → Prop
  | last {cluster : Nat} (h : 2 ≤ cluster ∧ cluster ≤ 2848)
      (hend : fatEntry image cluster = 0xfff) : Chain image cluster [cluster]
  | next {cluster : Nat} {rest : List Nat}
      (h : 2 ≤ cluster ∧ cluster ≤ 2848)
      (hrest : Chain image (fatEntry image cluster) rest) :
      Chain image cluster (cluster :: rest)

theorem Chain.range {cluster : Nat} {chain : List Nat}
    (h : Chain image cluster chain) : 2 ≤ cluster ∧ cluster ≤ 2848 := by
  cases h with
  | last h _ => exact h
  | next h _ => exact h

theorem Chain.length_pos {cluster : Nat} {chain : List Nat}
    (h : Chain image cluster chain) : 0 < chain.length := by
  cases h with
  | last _ _ => exact Nat.one_pos
  | next _ _ => exact Nat.succ_pos _

/-- The loop, whatever it has loaded before. -/
theorem loading_run {n cluster : Nat} {m₀ : ByteMem} {done chain : List Nat}
    (hbios : bios.Serves image) (hconsts : Consts l m₀) (hn : n ≤ 128)
    (hchain : Chain image cluster chain)
    (h : Loading l image n m₀ done cluster c)
    (hlength : done.length + chain.length = n) :
    ∃ s, Reaches (Cpu.step l bios) c s ∧ s.label = .FILE_LOADED ∧
      s.mem.Holds 0x80000 ((done ++ chain).flatMap (sectorBytes image)) ∧
      Outside (Owned l n) m₀ s.mem := by
  induction hchain generalizing done c with
  | last hcluster hend =>
      rw [List.length_singleton] at hlength
      obtain ⟨e, hstep, hloaded⟩ := loading_step hbios hconsts hn hcluster h
        (by omega)
      rw [hend] at hloaded
      rw [loadNext_last hloaded] at hstep
      exact ⟨e.goto .FILE_LOADED, Reaches.single hstep, rfl, hloaded.file,
        hloaded.outside⟩
  | next hcluster hrest ih =>
      rename_i cluster rest
      have hpos := hrest.length_pos
      rw [List.length_cons] at hlength
      have hlength' : (done ++ [cluster]).length = done.length + 1 :=
        List.length_append
      obtain ⟨e, hstep, hloaded⟩ := loading_step hbios hconsts hn hcluster h
        (by omega)
      have hnext := loadNext_next hconsts hn (by omega) hloaded hrest.range
      obtain ⟨s, hreach, hlabel, hfile, hout⟩ := ih hnext (by omega)
      rw [List.append_assoc] at hfile
      exact ⟨s, (Reaches.single hstep).trans hreach, hlabel, hfile, hout⟩

end LearningLinux.Loader
