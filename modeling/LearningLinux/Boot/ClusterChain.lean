import LearningLinux.Boot.Search

/-!
# When the loading loop ends

The loop goes where the FAT says, for any disk: the clusters may be numbers
that no data sector has, they may come back, and the buffer starts over after
128 sectors. What it needs is a `ReadSector` that always succeeds, and so
`ReadSector` is a parameter here, beside `int 10h`; with the one of the loader
the steps are those of the loader (`loadStep_readSector`).

The one thing that ends the loop is the entry 0FFFh. A first cluster from the
directory can also be too large for the division in `GetFATEntry`; an entry of
the FAT cannot.
-/

namespace LearningLinux.Loader

open LearningLinux.Lib LearningLinux.Lib.ByteMem

variable {l : Layout} {bios : Bios} {image : Image}
  {int10 : Nat → ByteMem → ByteMem} {read : Cpu → Option Cpu} {c d e : Cpu}

/-! ## The loop over a `ReadSector` -/

def getFATEntryBy (l : Layout) (read : Cpu → Option Cpu) (c : Cpu) :
    Option Cpu :=
  ((fatRequest l c).bind fun c =>
    c.call (l.ip .fatSector) read).map (fatAnswer l)

/-- The code from `LABEL_FILENAME_FOUND` to `LABEL_FILE_LOADED`. -/
def loadStep (l : Layout) (int10 : Nat → ByteMem → ByteMem)
    (read : Cpu → Option Cpu) (c : Cpu) : Option Cpu :=
  match c.label with
  | .FILENAME_FOUND => some (found l c)
  | .GOON_LOADING_FILE =>
      let c := loadRequest int10 c
      (c.call (l.ip .load) read).bind fun c =>
        let c : Cpu := { c.drop with ax := c.top } -- pop ax
        (c.call (l.ip .fat) (getFATEntryBy l read)).map (loadNext l)
  | _ => none

theorem loadStep_readSector
    (h : c.label = .FILENAME_FOUND ∨ c.label = .GOON_LOADING_FILE) :
    loadStep l bios.int10 (readSector l bios) c = c.step l bios := by
  rcases h with h | h
  · rw [loadStep, Cpu.step, h]
  · rw [loadStep, Cpu.step, h]
    rfl

/-- `int 10h` keeps to the stack, and `ReadSector` comes back with as many
sectors in memory as it was asked for. -/
structure Succeeds (l : Layout) (image : Image)
    (int10 : Nat → ByteMem → ByteMem) (read : Cpu → Option Cpu) : Prop where
  int10 : ∀ sp m, Outside (Stack 0 sp) m (int10 sp m)
  read : ∀ c : Cpu, Consts l c.mem → 6 ≤ c.sp → c.sp ≤ 0x100 →
    c.ax < 2 ^ 16 → c.bx < 2 ^ 16 →
    c.es * 16 + c.bx + low c.cx * 512 ≤ 0x90000 →
    ∃ d, read c = some d ∧ SectorsRead image c.ax (low c.cx) c d

/-! ## The chain -/

/-- The cluster after `k` entries, as long as `GetFATEntry` can divide. -/
def clusterAt (image : Image) (first : Nat) : Nat → Option Nat
  | 0 => some first
  | k + 1 => (clusterAt image first k).bind fun cluster =>
      if cluster * 3 / 2 < 2 ^ 16 then some (fatEntry image cluster) else none

theorem clusterAt_succ {first k next : Nat} :
    clusterAt image first (k + 1) = some next ↔
      ∃ cluster, clusterAt image first k = some cluster ∧
        cluster * 3 / 2 < 2 ^ 16 ∧ fatEntry image cluster = next := by
  rw [clusterAt, Option.bind_eq_some_iff]
  simp only [Option.ite_none_right_eq_some, Option.some.injEq]

/-- The end mark is the entry number `k`, and no entry before. -/
structure EndsAfter (image : Image) (first k : Nat) : Prop where
  pos : 0 < k
  last : clusterAt image first k = some 0xfff
  before : ∀ j, 0 < j → j < k → clusterAt image first j ≠ some 0xfff

/-! ## One round -/

/-- At `LABEL_FILENAME_FOUND`, on an entry with this first cluster. -/
structure EntryFound (l : Layout) (first : Nat) (c : Cpu) : Prop where
  label : c.label = .FILENAME_FOUND
  sp : c.sp = 0x100
  es : c.es = 0x8000
  consts : Consts l c.mem
  cluster : c.mem.load16 (phys 0x8000 (add16 (c.di / 2 ^ 4 * 2 ^ 4) 0x1a)) =
    first

/-- At `LABEL_GOON_LOADING_FILE`, with `cluster` on the stack. -/
structure AtCluster (l : Layout) (cluster : Nat) (c : Cpu) : Prop where
  label : c.label = .GOON_LOADING_FILE
  ax : c.ax < 2 ^ 16
  bx : c.bx < 2 ^ 16 ∧ c.bx % 512 = 0
  sp : c.sp = 0xfe
  es : c.es = 0x8000
  saved : c.mem.load16 0x900fe = cluster
  consts : Consts l c.mem

/-- Before and after `GetFATEntry`, with its argument or its result. -/
structure InRound (l : Layout) (ax : Nat) (c : Cpu) : Prop where
  label : c.label = .GOON_LOADING_FILE
  ax : c.ax = ax
  bx : c.bx < 2 ^ 16 ∧ c.bx % 512 = 0
  sp : c.sp = 0x100
  es : c.es = 0x8000
  consts : Consts l c.mem

theorem add16_lt (a b : Nat) : add16 a b < 2 ^ 16 := by
  rw [add16]
  exact Nat.mod_lt _ (by decide)

/-- Writes to the stack and below the loader. -/
theorem consts_of_low {P : Nat → Prop} {m m' : ByteMem} (h : Consts l m)
    (hout : Outside P m m') (hP : ∀ b, P b → b < 0x90100) : Consts l m' :=
  consts_of_outside h hout fun _ hb _ hPb => absurd (hP _ hPb) (by omega)

theorem found_atCluster {first : Nat} (h : EntryFound l first c) :
    AtCluster l first (found l c) := by
  have hlayout := l.bounds
  have h₂ : sub16 c.sp 2 = 0xfe := by
    rw [h.sp, sub16_eq (by decide) (by decide)]
  have h₄ : sub16 c.sp 4 = 0xfc := by
    rw [h.sp, sub16_eq (by decide) (by decide)]
  have hds₂ : ds 0xfe = 0x900fe := ds_eq (by decide)
  have hds₄ : ds 0xfc = 0x900fc := ds_eq (by decide)
  have hdsSize : ds l.dwKernelSize = 0x90000 + l.vars + 5 := by
    rw [Layout.dwKernelSize, ds_eq (by omega)]
    omega
  have hstored (v w : Nat) : Outside (fun b => Stack 0xfc 0x100 b ∨
      (0x90000 + l.vars + 5 ≤ b ∧ b < 0x90000 + l.vars + 9)) c.mem
        ((c.mem.store32 0x900fc v).store32 (0x90000 + l.vars + 5) w) := by
    refine Outside.trans (outside_store32 ?_ _ _) (outside_store32 ?_ _ _)
    all_goals
      intro b hle hlt
      rw [Stack]
      omega
  have hword (m : ByteMem) (hm : Outside (fun b => Stack 0xfc 0x100 b ∨
      (0x90000 + l.vars + 5 ≤ b ∧ b < 0x90000 + l.vars + 9)) c.mem m) :
      m.load16 (phys c.es (add16 (c.di / 2 ^ 4 * 2 ^ 4) 0x1a)) = first := by
    have haddress : phys c.es (add16 (c.di / 2 ^ 4 * 2 ^ 4) 0x1a) + 1 <
        0x90000 := by
      rw [h.es, phys, add16]
      omega
    rw [← h.cluster, ← h.es, hm.load16]
    all_goals
      rw [Stack]
      omega
  simp only [found, h₂, h₄, hds₂, hds₄, hdsSize]
  have hm := hstored (c.eaxh * 2 ^ 16 + RootDirSectors)
    ((c.mem.store32 0x900fc (c.eaxh * 2 ^ 16 + RootDirSectors)).load32
      (phys c.es (add16 (c.di / 2 ^ 4 * 2 ^ 4) 0x1c)))
  generalize (c.mem.store32 0x900fc _).store32 (0x90000 + l.vars + 5) _ = m
    at hm ⊢
  refine ⟨rfl, add16_lt _ _, ⟨Nat.two_pow_pos 16, rfl⟩, rfl, rfl, ?_, ?_⟩
  · dsimp only
    rw [load16_store16_same, hword m hm, ← hword m hm]
    exact Nat.mod_eq_of_lt (load16_lt _ _)
  · refine consts_of_low (consts_of_outside h.consts hm fun b hb hvar => ?_)
      (outside_store16 (P := fun b => b < 0x90100) ?_ m _) fun _ hb => hb
    · rw [Stack]
      omega
    · intro b _ hlt
      omega

theorem loadRequest_inRound (hread : Succeeds l image int10 read) {cluster : Nat}
    (h : AtCluster l cluster c) :
    ∃ d, (loadRequest int10 c).call (l.ip .load) read = some d ∧
      InRound l cluster { d.drop with ax := d.top } := by
  have hbx := h.bx
  have hes := h.es
  obtain ⟨hrequest, hpushed⟩ := loadRequest_eq hread.int10 h.ax hbx.1 h.sp
  have hconsts : Consts l (loadRequest int10 c).mem :=
    consts_of_low h.consts hpushed fun b hb => by
      rw [Stack] at hb
      omega
  have hlow : low (loadRequest int10 c).cx = 1 := by
    rw [hrequest]
    exact low_bytes (by decide)
  have hax₁ : (loadRequest int10 c).ax = c.ax := by rw [hrequest]
  have hbx₁ : (loadRequest int10 c).bx = c.bx := by rw [hrequest]
  have hsp₁ : (loadRequest int10 c).sp = 0xfe := by rw [hrequest, ← h.sp]
  have hes₁ : (loadRequest int10 c).es = 0x8000 := by rw [hrequest, ← hes]
  have hlabel₁ : (loadRequest int10 c).label = .GOON_LOADING_FILE := by
    rw [hrequest, ← h.label]
  generalize loadRequest int10 c = p at *
  have hregs := sameRegs_push p (l.ip .load)
  have hsp := push_sp (c := p) (by omega) (by omega) (l.ip .load)
  obtain ⟨d, hd, hsectors⟩ := call_sectors (c := p) .load (by omega) (by omega)
    (by omega) (hlow ▸ hregs.cx ▸ hread.read (p.push (l.ip .load))
      (consts_push _ hconsts (by omega) (by omega)) (by omega) (by omega)
      (by rw [hregs.ax, hax₁]; exact h.ax) (by rw [hregs.bx, hbx₁]; exact hbx.1)
      (by rw [hregs.es, hregs.bx, hregs.cx, hlow]; omega))
  have hout := hsectors.outside
  have hspd := hsectors.sp
  rw [hsp₁] at hspd
  rw [hes₁, hbx₁, hsp₁] at hout
  have htop : d.top = cluster := by
    have hkept : p.mem.load16 0x900fe = cluster := by
      rw [hpushed.load16 (by rw [Stack]; omega) (by rw [Stack]; omega), h.saved]
    rw [top_eq (by omega), hspd, ← hkept, hout.load16]
    all_goals
      rw [Stack]
      omega
  have hdrop : add16 d.sp 2 = 0x100 := by
    rw [hspd, add16_eq (by decide)]
  refine ⟨d, hd, hsectors.label.trans hlabel₁, htop, ?_, hdrop,
    hsectors.es.trans hes₁, ?_⟩
  · show d.bx < 2 ^ 16 ∧ d.bx % 512 = 0
    rw [hsectors.bx, hbx₁]
    exact hbx
  · refine consts_of_low hconsts hout fun b hb => ?_
    rw [Stack] at hb
    omega

theorem getFATEntryBy_spec (hread : Succeeds l image int10 read)
    (hconsts : Consts l c.mem) (hlo : 14 ≤ c.sp) (hhi : c.sp ≤ 0x100)
    (hbx : c.bx < 2 ^ 16) (hes : c.es < 2 ^ 16)
    (hfits : c.ax * 3 / 2 < 2 ^ 16) :
    ∃ d, getFATEntryBy l read c = some d ∧ FatRead l image c d := by
  have hodd := bOdd_ge l
  have hvars := l.header_lt
  have hframe := outside_fatFrame (l := l) (c := c) (by omega)
  have hconsts₁ : Consts l (fatCall l c).mem := by
    refine consts_of_outside hconsts hframe fun b hb hvar => ?_
    rw [Stack, Layout.bOdd]
    omega
  have hsp₁ : (fatCall l c).sp = c.sp - 6 := rfl
  have hes₁ : (fatCall l c).es = 0x7f00 := rfl
  have hbx₁ : (fatCall l c).bx = 0 := rfl
  have hax₁ : (fatCall l c).ax = c.ax * 3 / 2 / 512 + 1 := rfl
  have hcount : low (fatCall l c).cx = 2 := low_bytes (by decide)
  have hregs := sameRegs_push (fatCall l c) (l.ip .fatSector)
  have hsp₂ := push_sp (c := fatCall l c) (by omega) (by omega)
    (l.ip .fatSector)
  have hsectors := hread.read ((fatCall l c).push (l.ip .fatSector))
    (consts_push _ hconsts₁ (by omega) (by omega)) (by omega) (by omega)
    (by rw [hregs.ax, hax₁]; omega)
    (by rw [hregs.bx, hbx₁]; decide)
    (by rw [hregs.es, hregs.bx, hregs.cx, hes₁, hbx₁, hcount]; decide)
  rw [hregs.ax, hregs.cx, hcount, hax₁] at hsectors
  obtain ⟨d, hd, hsectors⟩ := call_sectors .fatSector (by omega) (by omega)
    (by rw [hes₁, hbx₁]; decide) hsectors
  refine ⟨fatAnswer l d, ?_, fatAnswer_spec hlo hhi hbx hes hsectors⟩
  rw [getFATEntryBy, fatRequest_eq (by omega) hhi hconsts.bytsPerSec hfits,
    Option.bind_some, hd, Option.map_some]

/-- `GetFATEntry` and its call, if the quotient fits. -/
theorem call_getFATEntryBy (hread : Succeeds l image int10 read) {cluster : Nat}
    (h : InRound l cluster c) (hfits : cluster * 3 / 2 < 2 ^ 16) :
    ∃ e, c.call (l.ip .fat) (getFATEntryBy l read) = some e ∧
      InRound l (fatEntry image cluster) e := by
  have hodd := bOdd_ge l
  have hvars := l.header_lt
  have hsp := h.sp
  have hbx := h.bx
  have hes := h.es
  have hsp₁ := push_sp (c := c) (by omega) (by omega) (l.ip .fat)
  have hregs := sameRegs_push c (l.ip .fat)
  have hfat := getFATEntryBy_spec hread
    (consts_push (l.ip .fat) h.consts (by omega) (by omega)) (by omega)
    (by omega) (by rw [hregs.bx]; exact hbx.1) (by rw [hregs.es]; omega)
    (by rw [hregs.ax, h.ax]; exact hfits)
  obtain ⟨e, he, hfat⟩ := call_fatRead (by omega) (by omega) hfat
  have hout := hfat.outside
  rw [hsp] at hout
  refine ⟨e, he, hfat.label.trans h.label, ?_, ?_, hfat.sp.trans hsp,
    hfat.es.trans hes, ?_⟩
  · rw [hfat.ax, h.ax]
  · rw [hfat.bx]
    exact hbx
  · refine consts_of_outside h.consts hout fun b hb hvar => ?_
    rw [Scratch, Stack, Layout.bOdd]
    omega

/-- If it does not, the division is an exception. -/
theorem call_getFATEntryBy_none (h : c.ax < 2 ^ 16)
    (hlarge : 2 ^ 16 ≤ c.ax * 3 / 2) :
    c.call (l.ip .fat) (getFATEntryBy l read) = none := by
  have hregs := sameRegs_push c (l.ip .fat)
  rw [← hregs.ax] at h hlarge
  rw [Cpu.call]
  generalize c.push (l.ip .fat) = p at h hlarge
  have hax : (((p.push p.es).push p.bx).push p.ax).top = p.ax := top_push h
  have hax' : ((p.push p.es).push p.bx).ax = p.ax :=
    (sameRegs_push _ _).ax.trans (sameRegs_push _ _).ax
  rw [getFATEntryBy, fatRequest, hax', hax, if_pos hlarge, Option.bind_none,
    Option.map_none, Option.bind_none]

theorem loadNext_atCluster {next : Nat} (h : InRound l next c)
    (hnext : next ≠ 0xfff) (hlt : next < 2 ^ 16) :
    AtCluster l next (loadNext l c) := by
  have hbx := h.bx
  have hsp : sub16 0x100 2 = 0xfe := sub16_eq (by decide) (by decide)
  have hds : ds 0xfe = 0x900fe := ds_eq (by decide)
  have hconsts := consts_push next h.consts (by rw [h.sp]; decide)
    (by rw [h.sp])
  have hregs := sameRegs_push c next
  have hmem : (c.push next).mem = c.mem.store16 0x900fe next := by
    rw [Cpu.push, h.sp, hsp, hds]
  have hsp₁ : (c.push next).sp = 0xfe := by
    rw [Cpu.push, h.sp, hsp]
  rw [loadNext, h.ax, if_neg hnext]
  dsimp only
  rw [hconsts.bytsPerSec]
  refine ⟨rfl, add16_lt _ _, ⟨add16_lt _ _, ?_⟩, hsp₁, hregs.es.trans h.es,
    ?_, hconsts⟩
  · dsimp only
    rw [hregs.bx, add16]
    omega
  · dsimp only
    rw [hmem, load16_store16_same, Nat.mod_eq_of_lt hlt]

theorem fatEntry_lt (image : Image) (cluster : Nat) :
    fatEntry image cluster < 0x1000 := by
  have hlo := (image (SectorNoOfFAT1 * 512 + cluster * 3 / 2)).toNat_lt
  have hhi := (image (SectorNoOfFAT1 * 512 + cluster * 3 / 2 + 1)).toNat_lt
  rw [fatEntry]
  split <;> omega

/-- A round goes on to the next cluster of the chain, or to the end. -/
theorem loadStep_round (hread : Succeeds l image int10 read) {cluster : Nat}
    (h : AtCluster l cluster c) (hfits : cluster * 3 / 2 < 2 ^ 16) :
    ∃ d, loadStep l int10 read c = some d ∧
      (fatEntry image cluster = 0xfff → d.label = .FILE_LOADED) ∧
      (fatEntry image cluster ≠ 0xfff →
        AtCluster l (fatEntry image cluster) d) := by
  obtain ⟨d, hd, hround⟩ := loadRequest_inRound hread h
  obtain ⟨e, he, hentry⟩ := call_getFATEntryBy hread hround hfits
  refine ⟨loadNext l e, ?_, fun hend => ?_, fun hnext => ?_⟩
  · rw [loadStep, h.label]
    dsimp only
    rw [hd, Option.bind_some, he, Option.map_some]
  · rw [loadNext, hentry.ax, if_pos hend]
    rfl
  · exact loadNext_atCluster hentry hnext
      ((fatEntry_lt image cluster).trans (by decide))

theorem loadStep_stuck (hread : Succeeds l image int10 read) {cluster : Nat}
    (h : AtCluster l cluster c) (hlarge : 2 ^ 16 ≤ cluster * 3 / 2) :
    loadStep l int10 read c = none := by
  obtain ⟨d, hd, hround⟩ := loadRequest_inRound hread h
  have hlt : cluster < 2 ^ 16 := h.saved ▸ load16_lt _ _
  rw [loadStep, h.label]
  dsimp only
  rw [hd, Option.bind_some, call_getFATEntryBy_none (hround.ax ▸ hlt)
    (hround.ax ▸ hlarge)]
  rfl

/-! ## The whole loop -/

variable {first : Nat}

/-- After `k` rounds without the end mark. -/
theorem rounds (hread : Succeeds l image int10 read) (h : AtCluster l first c)
    {k cluster : Nat} (hk : clusterAt image first k = some cluster)
    (hbefore : ∀ j, 0 < j → j ≤ k → clusterAt image first j ≠ some 0xfff) :
    ∃ d, iter (loadStep l int10 read) k c = some d ∧ AtCluster l cluster d := by
  induction k generalizing cluster with
  | zero =>
      cases hk
      exact ⟨c, rfl, h⟩
  | succ k ih =>
      obtain ⟨last, hlast, hfits, rfl⟩ := clusterAt_succ.mp hk
      obtain ⟨d, hiter, hd⟩ := ih hlast fun j hj hle =>
        hbefore j hj (Nat.le_succ_of_le hle)
      obtain ⟨e, hstep, -, he⟩ := loadStep_round hread hd hfits
      have hne : fatEntry image last ≠ 0xfff := fun heq =>
        hbefore (k + 1) (Nat.succ_pos k) (Nat.le_refl _) (heq ▸ hk)
      exact ⟨e, by rw [iter_succ, hiter, Option.bind_some, hstep], he hne⟩

/-- A chain with an end is followed to the end. -/
theorem rounds_end (hread : Succeeds l image int10 read) (h : AtCluster l first c)
    {k : Nat} (hk : EndsAfter image first k) :
    ∃ d, iter (loadStep l int10 read) k c = some d ∧ d.label = .FILE_LOADED := by
  obtain ⟨k, rfl⟩ := Nat.exists_eq_succ_of_ne_zero (ne_of_gt hk.pos)
  obtain ⟨last, hlast, hfits, hnext⟩ := clusterAt_succ.mp hk.last
  obtain ⟨d, hiter, hd⟩ := rounds hread h hlast fun j hj hle =>
    hk.before j hj (Nat.lt_succ_of_le hle)
  obtain ⟨e, hstep, hend, -⟩ := loadStep_round hread hd hfits
  exact ⟨e, by rw [iter_succ, hiter, Option.bind_some, hstep],
    hend hnext⟩

/-- Without the end mark the loop is never left. -/
theorem rounds_endless (hread : Succeeds l image int10 read)
    (h : AtCluster l first c)
    (hnone : ∀ k, 0 < k → clusterAt image first k ≠ some 0xfff) {n : Nat}
    (hd : iter (loadStep l int10 read) n c = some d) :
    ∃ cluster, clusterAt image first n = some cluster ∧
      AtCluster l cluster d := by
  induction n generalizing d with
  | zero =>
      cases hd
      exact ⟨first, rfl, h⟩
  | succ n ih =>
      rw [iter_succ, Option.bind_eq_some_iff] at hd
      obtain ⟨e, hiter, hstep⟩ := hd
      obtain ⟨cluster, hcluster, he⟩ := ih hiter
      by_cases hfits : cluster * 3 / 2 < 2 ^ 16
      · obtain ⟨d', hstep', -, hd'⟩ := loadStep_round hread he hfits
        cases hstep.symm.trans hstep'
        have hnext : clusterAt image first (n + 1) =
            some (fatEntry image cluster) :=
          clusterAt_succ.mpr ⟨cluster, hcluster, hfits, rfl⟩
        refine ⟨_, hnext, hd' fun heq => ?_⟩
        exact hnone (n + 1) (Nat.succ_pos n) (heq ▸ hnext)
      · rw [loadStep_stuck hread he (Nat.le_of_not_lt hfits)] at hstep
        cases hstep

/-- Only the first cluster can be too large for `GetFATEntry`. -/
theorem clusterAt_fits (image : Image) (hfits : first * 3 / 2 < 2 ^ 16)
    (k : Nat) : ∃ cluster, clusterAt image first k = some cluster ∧
      cluster * 3 / 2 < 2 ^ 16 := by
  induction k with
  | zero => exact ⟨first, rfl, hfits⟩
  | succ k ih =>
      obtain ⟨cluster, hcluster, hlt⟩ := ih
      have hentry := fatEntry_lt image cluster
      exact ⟨fatEntry image cluster,
        clusterAt_succ.mpr ⟨cluster, hcluster, hlt, rfl⟩, by omega⟩

/-- Without it a round is followed by another, for ever. -/
theorem rounds_forever (hread : Succeeds l image int10 read)
    (h : AtCluster l first c) (hfits : first * 3 / 2 < 2 ^ 16)
    (hnone : ∀ k, 0 < k → clusterAt image first k ≠ some 0xfff) (n : Nat) :
    ∃ d, iter (loadStep l int10 read) n c = some d ∧
      d.label = .GOON_LOADING_FILE := by
  obtain ⟨cluster, hcluster, -⟩ := clusterAt_fits image hfits n
  obtain ⟨d, hd, hat⟩ := rounds hread h hcluster fun j hj _ => hnone j hj
  exact ⟨d, hd, hat.label⟩

/-- The end mark is missing if no entry is the first one with it. -/
theorem not_endMark (hnone : ∀ k, ¬ EndsAfter image first k) (k : Nat)
    (hpos : 0 < k) : clusterAt image first k ≠ some 0xfff := by
  induction k using Nat.strongRecOn with
  | ind k ih =>
      intro hk
      exact hnone k ⟨hpos, hk, fun j hj hlt => ih j hlt hj⟩

theorem iter_found (h : EntryFound l first c) (n : Nat) :
    iter (loadStep l int10 read) (n + 1) c =
      iter (loadStep l int10 read) n (found l c) := by
  have hstep : loadStep l int10 read c = some (found l c) := by
    rw [loadStep, h.label]
  rw [Nat.add_comm, iter_add, iter_one, hstep, Option.bind_some]

/-- The file is loaded after as many rounds as it takes to the end mark, and
never without one. The loop then goes on for ever, unless the first cluster is
too large for the division. -/
theorem loading_ends_iff (hread : Succeeds l image int10 read)
    (h : EntryFound l first c) :
    (∀ k, EndsAfter image first k → ∃ d,
      iter (loadStep l int10 read) (k + 1) c = some d ∧
        d.label = .FILE_LOADED) ∧
    ((∀ k, ¬ EndsAfter image first k) → ∀ n d,
      iter (loadStep l int10 read) n c = some d → d.label ≠ .FILE_LOADED) ∧
    (first * 3 / 2 < 2 ^ 16 → (∀ k, ¬ EndsAfter image first k) → ∀ n, ∃ d,
      iter (loadStep l int10 read) (n + 1) c = some d ∧
        d.label = .GOON_LOADING_FILE) := by
  have hfound := found_atCluster h
  refine ⟨fun k hk => ?_, fun hnone n d hd => ?_, fun hfits hnone n => ?_⟩
  · rw [iter_found h]
    exact rounds_end hread hfound hk
  · cases n with
    | zero =>
        cases hd
        rw [h.label]
        decide
    | succ n =>
        rw [iter_found h] at hd
        obtain ⟨_, -, hat⟩ := rounds_endless hread hfound
          (not_endMark hnone) hd
        rw [hat.label]
        decide
  · rw [iter_found h]
    exact rounds_forever hread hfound hfits (not_endMark hnone) n

/-! ## Two disks -/

/-- The `ReadSector` of a drive that does not end. -/
def anyRead (l : Layout) (image : Image) (c : Cpu) : Option Cpu :=
  if c.ax < 2880 ∧ c.ax % 18 + low c.cx ≤ 18 ∧
      FitsDma (c.es * 16 + c.bx) (low c.cx) then
    readSector l (smallBios image) c
  else
    some { c with
      mem := c.mem.write (c.es * 16 + c.bx) (low c.cx * 512) fun i =>
        image (c.ax * 512 + i) }

theorem anyRead_succeeds (l : Layout) (image : Image) :
    Succeeds l image (smallBios image).int10 (anyRead l image) := by
  refine ⟨(smallBios_serves image).int10,
    fun c hconsts hlo hhi _ hbx _ => ?_⟩
  rw [anyRead]
  split
  · next h =>
      obtain ⟨hsector, htrack, hbuffer⟩ := h
      exact readSector_spec (smallBios_serves image) rfl hconsts.secPerTrk
        hconsts.drvNum hlo hhi hbx hbuffer hsector htrack
  · refine ⟨_, rfl, rfl, rfl, rfl, rfl, rfl, rfl, rfl, ?_, ?_⟩
    · intro i hi
      dsimp only
      exact write_inside hi
    · dsimp only
      refine outside_write ?_ _ _
      intro b hle hlt
      exact Or.inl ⟨hle, hlt⟩

/-- On an entry of a file that starts in cluster 2. -/
def foundStart : Cpu :=
  { smallStart with
    label := .FILENAME_FOUND
    es := 0x8000
    mem := smallMem.store16 0x8001a 2 }

theorem foundStart_entry : EntryFound smallLayout 2 foundStart := by
  refine ⟨rfl, rfl, rfl, ?_, ?_⟩
  · refine consts_of_low consts_small (outside_store16
      (P := fun b => b < 0x90100) ?_ smallMem 2) fun _ hb => hb
    intro b _ hlt
    omega
  · have haddress : phys 0x8000 (add16 (0 / 2 ^ 4 * 2 ^ 4) 0x1a) = 0x8001a := by
      simp [phys, add16]
    show (smallMem.store16 0x8001a 2).load16 _ = 2
    rw [show foundStart.di = 0 from rfl, haddress]
    exact load16_store16_same

theorem loading_ends_small : EndsAfter smallImage 2 2 ∧ ∃ d,
    iter (loadStep smallLayout (smallBios smallImage).int10
      (anyRead smallLayout smallImage)) 3 foundStart = some d ∧
      d.label = .FILE_LOADED := by
  have hends : EndsAfter smallImage 2 2 := by
    refine ⟨by decide, by decide, fun j hpos hlt => ?_⟩
    have hone : j = 1 := by omega
    subst hone
    decide
  exact ⟨hends, (loading_ends_iff (anyRead_succeeds smallLayout smallImage)
    foundStart_entry).1 2 hends⟩

/-- A FAT in which the entry of cluster 2 is 2. -/
def selfImage : Image := fun a => if a = 515 then 2 else 0

theorem clusterAt_selfImage (k : Nat) : clusterAt selfImage 2 k = some 2 := by
  induction k with
  | zero => rfl
  | succ k ih => exact clusterAt_succ.mpr ⟨2, ih, by decide, by decide⟩

/-- The loop goes round on it for ever. -/
theorem selfImage_endless : ∃ int10 read c,
    Succeeds smallLayout selfImage int10 read ∧ EntryFound smallLayout 2 c ∧
      ∀ n, ∃ d, iter (loadStep smallLayout int10 read) (n + 1) c = some d ∧
        d.label = .GOON_LOADING_FILE := by
  refine ⟨(smallBios selfImage).int10, anyRead smallLayout selfImage,
    foundStart, anyRead_succeeds smallLayout selfImage, foundStart_entry,
    fun n => ?_⟩
  rw [iter_found foundStart_entry]
  refine rounds_forever (anyRead_succeeds smallLayout selfImage)
    (found_atCluster foundStart_entry) (by decide) (fun k _ => ?_) n
  rw [clusterAt_selfImage]
  decide

end LearningLinux.Loader
