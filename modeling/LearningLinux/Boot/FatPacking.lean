import LearningLinux.Boot.Search

/-!
# The packed FAT

The table has two entries of 12 bits in every three bytes, the lower bits
first: an even entry begins with its byte, an odd one in the middle of it.
`GetFATEntry` reads the two bytes that an entry is in as one word and takes
the lower or the upper 12 bits. The nine sectors of the table have 3072
entries, and the bytes of some are in two sectors.
-/

namespace LearningLinux.Loader

open LearningLinux.Lib

def FATSz : Nat := 9

/-- How many entries the table has. -/
def fatEntries : Nat := FATSz * 512 / 3 * 2

/-- Byte `i` of a table with the entries of `f`. -/
def packedByte (f : Nat → BitVec 12) (i : Nat) : UInt8 :=
  let even := (f (i / 3 * 2)).toNat
  let odd := (f (i / 3 * 2 + 1)).toNat
  UInt8.ofNat
    (if i % 3 = 0 then even % 2 ^ 8
    else if i % 3 = 1 then even / 2 ^ 8 + 2 ^ 4 * (odd % 2 ^ 4)
    else odd / 2 ^ 4)

/-- The first FAT of the disk has the entries of `f`. -/
def PackedFat (image : Image) (f : Nat → BitVec 12) : Prop :=
  ∀ i < FATSz * 512, image (SectorNoOfFAT1 * 512 + i) = packedByte f i

variable {l : Layout} {bios : Bios} {image : Image} {f : Nat → BitVec 12}
  {c : Cpu} {n : Nat}

theorem packedByte_first (f : Nat → BitVec 12) (p : Nat) :
    (packedByte f (3 * p)).toNat = (f (2 * p)).toNat % 2 ^ 8 := by
  have hpair : 3 * p / 3 * 2 = 2 * p := by omega
  rw [packedByte, hpair, if_pos (by omega), UInt8.toNat_ofNat', Nat.mod_mod]

theorem packedByte_middle (f : Nat → BitVec 12) (p : Nat) :
    (packedByte f (3 * p + 1)).toNat =
      (f (2 * p)).toNat / 2 ^ 8 + 2 ^ 4 * ((f (2 * p + 1)).toNat % 2 ^ 4) := by
  have hpair : (3 * p + 1) / 3 * 2 = 2 * p := by omega
  have hlt := (f (2 * p)).isLt
  rw [packedByte, hpair, if_neg (by omega), if_pos (by omega),
    UInt8.toNat_ofNat']
  omega

theorem packedByte_last (f : Nat → BitVec 12) (p : Nat) :
    (packedByte f (3 * p + 2)).toNat = (f (2 * p + 1)).toNat / 2 ^ 4 := by
  have hpair : (3 * p + 2) / 3 * 2 = 2 * p := by omega
  have hlt := (f (2 * p + 1)).isLt
  rw [packedByte, hpair, if_neg (by omega), if_neg (by omega),
    UInt8.toNat_ofNat']
  omega

theorem fatEntry_packed (hfat : PackedFat image f) (hn : n < fatEntries) :
    fatEntry image n = (f n).toNat := by
  have hlt : n < 3072 := hn
  have hbyte (i : Nat) (hi : i < 4608) :
      image (SectorNoOfFAT1 * 512 + i) = packedByte f i := hfat i hi
  obtain ⟨p, hp⟩ : ∃ p, n = 2 * p ∨ n = 2 * p + 1 := ⟨n / 2, by omega⟩
  rw [fatEntry, Nat.add_assoc, hbyte _ (by omega), hbyte _ (by omega)]
  rcases hp with rfl | rfl
  · have hstart : 2 * p * 3 / 2 = 3 * p := by omega
    have hentry := (f (2 * p)).isLt
    rw [hstart, packedByte_first, packedByte_middle, if_pos (by omega)]
    omega
  · have hstart : (2 * p + 1) * 3 / 2 = 3 * p + 1 := by omega
    have heven := (f (2 * p)).isLt
    have hentry := (f (2 * p + 1)).isLt
    rw [hstart, packedByte_middle, packedByte_last, if_neg (by omega)]
    omega

/-- `GetFATEntry` returns entry number `ax` of the table, with `bx` and `es`
as they were. -/
theorem getFATEntry_packed (hbios : bios.Serves image)
    (hfat : PackedFat image f) (hconsts : Consts l c.mem) (hlo : 14 ≤ c.sp)
    (hhi : c.sp ≤ BaseOfStack) (hbx : c.bx < 2 ^ 16) (hes : c.es < 2 ^ 16)
    (hn : c.ax < fatEntries) :
    ∃ d, getFATEntry l bios c = some d ∧ d.ax = (f c.ax).toNat ∧
      d.bx = c.bx ∧ d.es = c.es := by
  obtain ⟨d, hd, hread⟩ := getFATEntry_spec hbios hconsts hlo hhi hbx hes hn
  exact ⟨d, hd, hread.ax.trans (fatEntry_packed hfat hn), hread.bx, hread.es⟩

/-- Entry 341 has its first byte at the end of a sector. -/
theorem getFATEntry_packed_straddling :
    let f : Nat → BitVec 12 := fun n => BitVec.ofNat 12 (n + 1)
    let image : Image := fun a => packedByte f (a - 512)
    let c : Cpu := { smallStart with ax := 341, sp := 0xf0 }
    ∃ d, getFATEntry smallLayout (smallBios image) c = some d ∧ d.ax = 342 ∧
      d.bx = c.bx ∧ d.es = c.es :=
  getFATEntry_packed (f := fun n => BitVec.ofNat 12 (n + 1))
    (smallBios_serves _)
    (fun i _ => congrArg (packedByte _) (Nat.add_sub_cancel_left 512 i))
    consts_small (by decide) (by decide) (by decide) (by decide) (by decide)

end LearningLinux.Loader
