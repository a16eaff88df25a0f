import LearningLinux.Lib.Threads
import LearningLinux.ScullMem.Sections

/-!
# The device as an array of bytes

With a geometry that does not overflow, position `pos` is byte `pos % quantum`
of quantum `pos / quantum`, and quantum `i` is in slot `i % qset` of item
`i / qset`. So different positions are different cells, and the device is a
partial array of bytes: what was written at a position is there until it is
written again.

`written` is the array that the calls so far amount to, a `copy_from_user`
that failed half way included.
-/

namespace LearningLinux.ScullMem

open LearningLinux.Lib
open LearningLinux.Scull (Params sizeT intOf intOf_natCast)

variable {β : Type*} {quantum qset : Nat} {dev dev' : ScullDev β}
  {pos : Nat}

/-! ## Positions -/

/-- Quantum number `i`. -/
def ScullDev.quantumAt (qset : Nat) (dev : ScullDev β) (i : Nat) :
    Option (Block β) :=
  dev.slot (i / qset) (i % qset)

def ScullDev.byteAt (quantum qset : Nat) (dev : ScullDev β) (x : Nat) :
    Option β :=
  (dev.quantumAt qset (x / quantum)).map fun q => q.mem (x % quantum)

structure Geometry (quantum qset : Nat) : Prop where
  quantum_pos : 0 < quantum
  qset_pos : 0 < qset
  lt : quantum * qset < 2 ^ 31

theorem Geometry.itemsize_eq (h : Geometry quantum qset) :
    itemsize quantum qset = (quantum * qset : Nat) := by
  rw [itemsize, ← Int.natCast_mul]
  exact intOf_natCast h.lt

/-- The number of the item is narrowed, the rest is not. -/
theorem Geometry.place_narrowed (h : Geometry quantum qset) (pos : Nat) :
    place quantum qset pos =
      ⟨intOf (pos / quantum / qset : Nat), (pos / quantum % qset : Nat),
        (pos % quantum : Nat)⟩ := by
  have hlt := h.lt
  have hrest := Nat.mod_lt pos (Nat.mul_pos h.quantum_pos h.qset_pos)
  rw [place, h.itemsize_eq, ← Int.ofNat_tdiv, ← Int.ofNat_tmod,
    intOf_natCast (hrest.trans hlt), ← Int.ofNat_tdiv, ← Int.ofNat_tmod,
    Nat.mod_mul_right_div_self, Nat.mod_mul_right_mod, Nat.div_div_eq_div_mul]

theorem Geometry.place_parts (h : Geometry quantum qset) (x : Nat) :
    (place quantum qset x).hops = x / quantum / qset % 2 ^ 32 ∧
      (place quantum qset x).s_pos.toNat = x / quantum % qset ∧
      (place quantum qset x).q_pos.toNat = x % quantum := by
  rw [h.place_narrowed]
  refine ⟨?_, Int.toNat_natCast _, Int.toNat_natCast _⟩
  generalize x / quantum / qset = item
  have hmod := Int.bmod_emod (x := (item : Int)) (m := 2 ^ 32)
  simp only [Place.hops, intOf]
  omega

theorem Geometry.hops_eq (h : Geometry quantum qset)
    (hitem : pos / (quantum * qset) < 2 ^ 31) :
    (place quantum qset pos).hops = pos / quantum / qset := by
  rw [← Nat.div_div_eq_div_mul] at hitem
  rw [(h.place_parts pos).1, Nat.mod_eq_of_lt (by omega)]

theorem Geometry.slot_place (h : Geometry quantum qset)
    (hitem : pos / (quantum * qset) < 2 ^ 31) (dev : ScullDev β) :
    dev.slot (place quantum qset pos).hops
        (place quantum qset pos).s_pos.toNat =
      dev.quantumAt qset (pos / quantum) := by
  rw [h.hops_eq hitem, (h.place_parts pos).2.1]
  rfl

theorem Geometry.upToEnd_eq (h : Geometry quantum qset) (pos count : Nat) :
    upToEnd quantum (place quantum qset pos) count =
      min count (quantum - pos % quantum) := by
  have hlt := Nat.mod_lt pos h.quantum_pos
  have hq : quantum < 2 ^ 31 := Nat.lt_of_le_of_lt
    (Nat.le_mul_of_pos_right quantum h.qset_pos) h.lt
  have hsize := sizeT_of_nonneg (n := (quantum : Int) - (pos % quantum : Nat))
    (by omega) (by omega)
  rw [upToEnd, h.place_narrowed]
  show min count (sizeT ((quantum : Int) - (pos % quantum : Nat))) = _
  omega

/-- Quanta of different numbers are in different slots. -/
theorem slot_inj {i j : Nat} :
    (i / qset = j / qset ∧ i % qset = j % qset) ↔ i = j := by
  constructor
  · intro ⟨hdiv, hmod⟩
    rw [← Nat.div_add_mod i qset, hdiv, hmod, Nat.div_add_mod]
  · intro heq
    rw [heq]
    exact ⟨rfl, rfl⟩

theorem Stored.quantumAt (hgeo : Geometry quantum qset)
    (hitem : pos / (quantum * qset) < 2 ^ 31) {q : Block β} {bytes : List β}
    (h : Stored dev dev' (place quantum qset pos) q bytes) (i : Nat) :
    dev'.quantumAt qset i =
      if i = pos / quantum then some (q.store (pos % quantum) bytes)
      else dev.quantumAt qset i := by
  obtain ⟨-, hs_pos, hq_pos⟩ := hgeo.place_parts pos
  rw [ScullDev.quantumAt, h.slot, hgeo.hops_eq hitem, hs_pos, hq_pos]
  exact if_congr slot_inj rfl rfl

/-- A position is in a stretch that ends with its quantum, or its byte is not
touched. -/
theorem stretch_iff (hq : 0 < quantum) {len x : Nat}
    (hlen : pos % quantum + len ≤ quantum) :
    (pos ≤ x ∧ x < pos + len) ↔ x / quantum = pos / quantum ∧
      pos % quantum ≤ x % quantum ∧ x % quantum - pos % quantum < len := by
  have hpos := Nat.div_add_mod pos quantum
  have hx := Nat.div_add_mod x quantum
  have hxlt := Nat.mod_lt x hq
  constructor
  · intro ⟨hle, hlt⟩
    have hdiv : x / quantum = pos / quantum := by
      refine Nat.div_eq_of_lt_le ?_ ?_
      · rw [Nat.mul_comm]
        omega
      · rw [Nat.mul_comm, Nat.mul_succ]
        omega
    rw [hdiv] at hx
    exact ⟨hdiv, by omega, by omega⟩
  · intro ⟨hdiv, hle, hlt⟩
    rw [hdiv] at hx
    omega

theorem same_quantum (hq : 0 < quantum) {len k : Nat}
    (hlen : pos % quantum + len ≤ quantum) (hk : k < len) :
    (pos + k) / quantum = pos / quantum ∧
      (pos + k) % quantum = pos % quantum + k := by
  obtain ⟨hdiv, hle, hlt⟩ := (stretch_iff hq hlen (x := pos + k)).mp
    ⟨Nat.le_add_right .., by omega⟩
  have hpos := Nat.div_add_mod pos quantum
  have hx := Nat.div_add_mod (pos + k) quantum
  rw [hdiv] at hx
  exact ⟨hdiv, by omega⟩

theorem Stored.byteAt_inside (hgeo : Geometry quantum qset)
    (hitem : pos / (quantum * qset) < 2 ^ 31) {q : Block β} {bytes : List β}
    (h : Stored dev dev' (place quantum qset pos) q bytes)
    (hlen : pos % quantum + bytes.length ≤ quantum) {k : Nat}
    (hk : k < bytes.length) :
    dev'.byteAt quantum qset (pos + k) = some bytes[k] := by
  obtain ⟨hdiv, hmod⟩ := same_quantum hgeo.quantum_pos hlen hk
  rw [ScullDev.byteAt, h.quantumAt hgeo hitem, if_pos hdiv, Option.map_some,
    hmod]
  exact congrArg some (overlay_inside hk)

theorem Stored.byteAt_outside (hgeo : Geometry quantum qset)
    (hitem : pos / (quantum * qset) < 2 ^ 31) {q : Block β} {bytes : List β}
    (h : Stored dev dev' (place quantum qset pos) q bytes)
    (hq : ∀ q', dev.quantumAt qset (pos / quantum) = some q' → q' = q)
    (hlen : pos % quantum + bytes.length ≤ quantum) {x : Nat} {v : β}
    (hx : ¬ (pos ≤ x ∧ x < pos + bytes.length))
    (hv : dev.byteAt quantum qset x = some v) :
    dev'.byteAt quantum qset x = some v := by
  rw [ScullDev.byteAt, h.quantumAt hgeo hitem]
  split
  · next hdiv =>
      obtain ⟨q', hq', hmem⟩ := Option.map_eq_some_iff.mp hv
      rw [hdiv] at hq'
      rw [← hmem, hq q' hq', Option.map_some]
      refine congrArg some (overlay_outside fun hin => hx ?_)
      exact (stretch_iff hgeo.quantum_pos hlen).mpr ⟨hdiv, hin⟩
  · exact hv

theorem SameQuanta.byteAt (h : SameQuanta dev dev') (x : Nat) :
    dev'.byteAt quantum qset x = dev.byteAt quantum qset x := by
  rw [ScullDev.byteAt, ScullDev.quantumAt, h.slot]
  rfl

/-! ## Runs -/

/-- The device, and the last value written at each position. -/
structure Bytes (β : Type*) where
  dev : ScullDev β
  written : Nat → Option β

/-- A call at a position. -/
inductive Call (β : Type*) where
  | read (c : ReadCall) (pos : Nat)
  | write (c : WriteCall β) (pos : Nat)

/-- What the kernel passes on, below item number 2^31. -/
def LegalAt (quantum qset pos count : Nat) : Prop :=
  pos + count < 2 ^ 63 ∧ pos / (quantum * qset) < 2 ^ 31

instance (quantum qset pos count : Nat) :
    Decidable (LegalAt quantum qset pos count) :=
  inferInstanceAs (Decidable (_ ∧ _))

/-- What a write has stored when it returns. -/
def WriteCall.stores (c : WriteCall β) (count : Nat) : Outcome β → List β
  | .done bytes => bytes
  | .efault =>
      match c.fault with
      | some left => (List.range count).map left
      | none => []
  | _ => []

def Bytes.noted (s : Bytes β) (pos : Nat) (bytes : List β) :
    Nat → Option β :=
  overlay s.written pos (bytes.map some)

def Bytes.step (quantum qset : Nat) (s : Bytes β) :
    Call β → Option (Bytes β)
  | .read c pos =>
      if LegalAt quantum qset pos c.count then
        match scullRead s.dev.quantum s.dev.qset s.dev c pos with
        | .ok r => some ⟨r.dev, s.written⟩
        | .error _ => none
      else none
  | .write c pos =>
      if LegalAt quantum qset pos c.buf.length then
        match scullWrite s.dev.quantum s.dev.qset s.dev c pos with
        | .ok r =>
            let count := upToEnd s.dev.quantum
              (place s.dev.quantum s.dev.qset pos) c.buf.length
            some ⟨r.dev, s.noted pos (c.stores count r.ret)⟩
        | .error _ => none
      else none

/-! ## What the next call does -/

/-- A write that returns the number of `bytes`. -/
structure WriteLaw (quantum qset : Nat) (s : Bytes β) (c : WriteCall β)
    (pos : Nat) (bytes : List β) (r : Section β) : Prop where
  taken : bytes = c.buf.take (min c.buf.length (quantum - pos % quantum))
  advance : r.pos = pos + bytes.length
  stored : ∀ k (h : k < bytes.length),
    r.dev.byteAt quantum qset (pos + k) = some bytes[k]
  others : ∀ x v, s.written x = some v →
    ¬ (pos ≤ x ∧ x < pos + bytes.length) →
      r.dev.byteAt quantum qset x = some v
  size : r.dev.size = max s.dev.size (pos + bytes.length)

/-- A read that returns the number of `bytes`. -/
structure ReadLaw (quantum qset : Nat) (s : Bytes β) (c : ReadCall)
    (pos : Nat) (bytes : List β) (r : Section β) : Prop where
  count : bytes.length ≤ c.count
  advance : r.pos = pos + bytes.length
  within : bytes ≠ [] → pos + bytes.length ≤ s.dev.size
  written : ∀ k (h : k < bytes.length) v, s.written (pos + k) = some v →
    bytes[k] = v
  zero : bytes = [] → c.count = 0 ∨ s.dev.size ≤ pos ∨
    s.dev.quantumAt qset (pos / quantum) = none

/-- In this state every call returns, and what it returns is right. Only a
write that stores something changes the size. -/
structure ActsAsArray (quantum qset : Nat) (s : Bytes β) : Prop where
  write : ∀ (c : WriteCall β) pos, LegalAt quantum qset pos c.buf.length →
    ∃ r, scullWrite s.dev.quantum s.dev.qset s.dev c pos = .ok r ∧
      (∀ bytes, r.ret = .done bytes → WriteLaw quantum qset s c pos bytes r) ∧
      ((∀ bytes, r.ret ≠ .done bytes) → r.dev.size = s.dev.size)
  read : ∀ (c : ReadCall) pos, LegalAt quantum qset pos c.count →
    ∃ r, scullRead s.dev.quantum s.dev.qset s.dev c pos = .ok r ∧
      (∀ bytes, r.ret = .done bytes → ReadLaw quantum qset s c pos bytes r) ∧
      r.dev.size = s.dev.size

structure Bytes.Inv (quantum qset : Nat) (s : Bytes β) : Prop where
  quantum_eq : s.dev.quantum = quantum
  qset_eq : s.dev.qset = qset
  fits : s.dev.Fits
  written : ∀ x v, s.written x = some v →
    s.dev.byteAt quantum qset x = some v

variable {s t : Bytes β}

theorem Geometry.itemsize_ne (h : Geometry quantum qset) :
    itemsize quantum qset ≠ 0 := by
  have hpos := Nat.mul_pos h.quantum_pos h.qset_pos
  rw [h.itemsize_eq]
  omega

theorem Bytes.Inv.read_ok (h : s.Inv quantum qset)
    (hgeo : Geometry quantum qset) (c : ReadCall) (pos : Nat) :
    ∃ r, scullRead s.dev.quantum s.dev.qset s.dev c pos = .ok r ∧
      r.dev.Fits := by
  rcases scullRead_ok h.fits (h.quantum_eq ▸ Int.natCast_nonneg _) c pos with
    hok | ⟨hzero, -⟩
  · exact hok
  · rw [h.quantum_eq, h.qset_eq] at hzero
    exact absurd hzero hgeo.itemsize_ne

theorem Bytes.Inv.write_ok (h : s.Inv quantum qset)
    (hgeo : Geometry quantum qset) (c : WriteCall β) (pos : Nat) :
    ∃ r, scullWrite s.dev.quantum s.dev.qset s.dev c pos = .ok r ∧
      r.dev.Fits := by
  rcases scullWrite_ok h.fits (h.quantum_eq ▸ Int.natCast_nonneg _) c pos with
    hok | ⟨hzero, -⟩
  · exact hok
  · rw [h.quantum_eq, h.qset_eq] at hzero
    exact absurd hzero hgeo.itemsize_ne

/-! ### A write -/

theorem Stored.fits_quantum (hgeo : Geometry quantum qset)
    {c : WriteCall β} {bytes : List β}
    (hlen : bytes.length ≤
      upToEnd quantum (place quantum qset pos) c.buf.length) :
    pos % quantum + bytes.length ≤ quantum := by
  rw [hgeo.upToEnd_eq] at hlen
  have hlt := Nat.mod_lt pos hgeo.quantum_pos
  omega

/-- A write stores its bytes in one quantum, a new one if there was none, or
it stores nothing. -/
theorem WriteEnds.stored {quantum qset : Int} {c : WriteCall β}
    {r : Section β} (h : WriteEnds quantum qset dev c pos r) :
    let p := place quantum qset pos
    let count := upToEnd quantum p c.buf.length
    let bytes := c.stores count r.ret
    (SameQuanta dev r.dev ∧ bytes = []) ∨
      ∃ q, (dev.slot p.hops p.s_pos.toNat).getD ⟨quantum.toNat, c.fresh⟩ = q ∧
        Stored dev r.dev p q bytes ∧ bytes.length ≤ count := by
  cases h with
  | interrupted _ => exact Or.inl ⟨SameQuanta.refl dev, rfl⟩
  | nomem dev' hsame _ => exact Or.inl ⟨hsame, rfl⟩
  | fault dev' q left hfault hq hstored _ =>
      refine Or.inr ⟨q, hq, ?_⟩
      rw [WriteCall.stores, hfault]
      refine ⟨hstored, ?_⟩
      rw [List.length_map, List.length_range]
  | moved dev' q count _ _ hcount hq hstored _ =>
      subst hcount
      exact Or.inr ⟨q, hq, hstored, List.length_take_le ..⟩

/-- What is noted as written is what the device then holds. -/
theorem Bytes.Inv.noted (h : s.Inv quantum qset)
    (hgeo : Geometry quantum qset) {c : WriteCall β} {r : Section β}
    (hitem : pos / (quantum * qset) < 2 ^ 31)
    (hends : WriteEnds quantum qset s.dev c pos r) (x : Nat) (v : β)
    (hx : s.noted pos (c.stores (upToEnd quantum (place quantum qset pos)
      c.buf.length) r.ret) x = some v) :
    r.dev.byteAt quantum qset x = some v := by
  obtain ⟨hsame, hnil⟩ | ⟨q, hq, hstored, hlen⟩ := hends.stored
  · rw [hnil, Bytes.noted, overlay_outside (by simp)] at hx
    rw [hsame.byteAt]
    exact h.written x v hx
  · generalize c.stores _ r.ret = bytes at hx hstored hlen
    have hroom := Stored.fits_quantum hgeo hlen
    by_cases hin : pos ≤ x ∧ x < pos + bytes.length
    · obtain ⟨k, rfl⟩ := Nat.exists_eq_add_of_le hin.1
      have hk : k < bytes.length := by omega
      rw [Bytes.noted, overlay_inside (by rwa [List.length_map]),
        List.getElem_map] at hx
      rw [hstored.byteAt_inside hgeo hitem hroom hk, hx]
    · rw [Bytes.noted, overlay_outside (by
        rw [List.length_map]
        omega)] at hx
      refine hstored.byteAt_outside hgeo hitem ?_ hroom hin (h.written x v hx)
      intro q' hq'
      rw [hgeo.slot_place hitem, hq'] at hq
      exact hq

theorem Bytes.Inv.writeLaw (h : s.Inv quantum qset)
    (hgeo : Geometry quantum qset) {c : WriteCall β} {r : Section β}
    (hitem : pos / (quantum * qset) < 2 ^ 31)
    (hends : WriteEnds quantum qset s.dev c pos r) {bytes : List β}
    (hret : r.ret = .done bytes) : WriteLaw quantum qset s c pos bytes r := by
  have hnoted := h.noted hgeo hitem hends
  cases hends with
  | interrupted _ => cases hret
  | nomem dev' _ _ => cases hret
  | fault dev' q left _ _ _ _ => cases hret
  | moved dev' q count hsignal _ hcount _ _ hsize =>
      cases hret
      have hlen : (c.buf.take count).length = count := by
        rw [List.length_take, hcount]
        exact Nat.min_eq_left (upToEnd_le ..)
      refine ⟨?_, ?_, fun k hk => ?_, fun x v hx hout => ?_, ?_⟩
      · rw [hcount, hgeo.upToEnd_eq]
      · rw [hlen]
      · refine hnoted (pos + k) _ ?_
        show overlay s.written pos ((c.buf.take count).map some) (pos + k) = _
        rw [overlay_inside (by rwa [List.length_map]), List.getElem_map]
      · refine hnoted x v ?_
        show overlay s.written pos ((c.buf.take count).map some) x = _
        rw [overlay_outside (by
          rw [List.length_map]
          omega), hx]
      · rw [hlen, hsize]

theorem WriteEnds.size_of_failed {quantum qset : Int} {c : WriteCall β}
    {r : Section β} (h : WriteEnds quantum qset dev c pos r)
    (hfailed : ∀ bytes, r.ret ≠ .done bytes) : r.dev.size = dev.size := by
  cases h with
  | interrupted _ => rfl
  | nomem dev' _ hsize => exact hsize
  | fault dev' q left _ _ _ hsize => exact hsize
  | moved dev' q count _ _ _ _ _ _ => exact absurd rfl (hfailed _)

/-! ### A read -/

theorem count_bounds {asked size offset count : Nat}
    (hcount : count = min (min asked (size - pos)) (quantum - offset))
    (hpos : pos < size) (hoffset : offset < quantum) :
    count ≤ asked ∧ pos + count ≤ size ∧ offset + count ≤ quantum ∧
      (count = 0 → asked = 0) := by
  omega

theorem ReadEnds.readLaw (h : s.Inv quantum qset)
    (hgeo : Geometry quantum qset) {c : ReadCall} {r : Section β}
    (hitem : pos / (quantum * qset) < 2 ^ 31) {ret : Outcome β} {pos' : Nat}
    (hends : ReadEnds quantum qset s.dev c pos ret pos') {bytes : List β}
    (hret : ret = .done bytes) (hr : r.pos = pos') :
    ReadLaw quantum qset s c pos bytes r := by
  cases hends with
  | interrupted _ => cases hret
  | fault _ => cases hret
  | «end» hpos =>
      cases hret
      exact ⟨Nat.zero_le _, hr, fun hne => absurd rfl hne,
        fun k hk => absurd hk (Nat.not_lt_zero k),
        fun _ => Or.inr (Or.inl hpos)⟩
  | hole hslot =>
      cases hret
      rw [hgeo.slot_place hitem] at hslot
      exact ⟨Nat.zero_le _, hr, fun hne => absurd rfl hne,
        fun k hk => absurd hk (Nat.not_lt_zero k),
        fun _ => Or.inr (Or.inr hslot)⟩
  | moved q count _ _ hpos hslot hcount _ =>
      cases hret
      rw [hgeo.slot_place hitem] at hslot
      rw [hgeo.upToEnd_eq] at hcount
      rw [(hgeo.place_parts pos).2.2]
      have hlen := q.length_load (pos % quantum) count
      obtain ⟨hle, hsize, hroom, hzero⟩ := count_bounds hcount hpos
        (Nat.mod_lt pos hgeo.quantum_pos)
      refine ⟨hlen.symm ▸ hle, hlen.symm ▸ hr, fun _ => hlen.symm ▸ hsize,
        fun k hk v hv => ?_, fun hnil => Or.inl ?_⟩
      · rw [hlen] at hk
        have hbyte := h.written (pos + k) v hv
        obtain ⟨hdiv, hmod⟩ := same_quantum hgeo.quantum_pos hroom hk
        rw [ScullDev.byteAt, hdiv, hmod, hslot] at hbyte
        rw [Block.getElem_load]
        exact Option.some.inj hbyte
      · rw [hnil] at hlen
        exact hzero hlen.symm

theorem Bytes.Inv.actsAsArray (h : s.Inv quantum qset)
    (hgeo : Geometry quantum qset) : ActsAsArray quantum qset s where
  write := by
    intro c pos hlegal
    obtain ⟨r, hr, -⟩ := h.write_ok hgeo c pos
    have hends := scullWrite_cases hr
    rw [h.quantum_eq, h.qset_eq] at hends
    exact ⟨r, hr, fun bytes hret => h.writeLaw hgeo hlegal.2 hends hret,
      hends.size_of_failed⟩
  read := by
    intro c pos hlegal
    obtain ⟨r, hr, -⟩ := h.read_ok hgeo c pos
    obtain ⟨-, hsize, hends⟩ := scullRead_cases hr
    rw [h.quantum_eq, h.qset_eq] at hends
    exact ⟨r, hr, fun bytes hret => hends.readLaw h hgeo hlegal.2 hret rfl,
      hsize⟩

/-! ## Every run -/

theorem Bytes.Inv.of_same (h : s.Inv quantum qset) {dev : ScullDev β}
    (hsame : SameQuanta s.dev dev) (hfits : dev.Fits) :
    Bytes.Inv quantum qset ⟨dev, s.written⟩ where
  quantum_eq := hsame.quantum.trans h.quantum_eq
  qset_eq := hsame.qset.trans h.qset_eq
  fits := hfits
  written := by
    intro x v hx
    rw [hsame.byteAt]
    exact h.written x v hx

/-- No quantum is lost. -/
def Keeps (qset : Nat) (dev dev' : ScullDev β) : Prop :=
  ∀ i, dev.quantumAt qset i ≠ none → dev'.quantumAt qset i ≠ none

theorem SameQuanta.keeps (h : SameQuanta dev dev') : Keeps qset dev dev' := by
  intro i hi
  rw [ScullDev.quantumAt, h.slot]
  exact hi

theorem Stored.keeps (hgeo : Geometry quantum qset)
    (hitem : pos / (quantum * qset) < 2 ^ 31) {q : Block β} {bytes : List β}
    (h : Stored dev dev' (place quantum qset pos) q bytes) :
    Keeps qset dev dev' := by
  intro i hi
  rw [h.quantumAt hgeo hitem]
  split
  · exact Option.some_ne_none _
  · exact hi

theorem Bytes.Inv.step (h : s.Inv quantum qset) (hgeo : Geometry quantum qset)
    {c : Call β} (hs : s.step quantum qset c = some t) :
    t.Inv quantum qset ∧ Keeps qset s.dev t.dev := by
  cases c with
  | read c pos =>
      rw [Bytes.step] at hs
      obtain ⟨-, hs⟩ := Option.ite_none_right_eq_some.mp hs
      obtain ⟨r, hr, hfits⟩ := h.read_ok hgeo c pos
      rw [hr] at hs
      cases hs
      obtain ⟨hsame, -, -⟩ := scullRead_cases hr
      exact ⟨h.of_same hsame hfits, hsame.keeps⟩
  | write c pos =>
      rw [Bytes.step] at hs
      obtain ⟨hlegal, hs⟩ := Option.ite_none_right_eq_some.mp hs
      obtain ⟨r, hr, hfits⟩ := h.write_ok hgeo c pos
      rw [hr] at hs
      cases hs
      have hends := scullWrite_cases hr
      obtain ⟨hquantum, hqset⟩ := hends.geometry_eq
      rw [h.quantum_eq, h.qset_eq] at hends
      rw [h.quantum_eq] at hquantum
      rw [h.qset_eq] at hqset
      refine ⟨⟨hquantum, hqset, hfits, ?_⟩, ?_⟩
      · rw [h.quantum_eq, h.qset_eq]
        exact h.noted hgeo hlegal.2 hends
      · obtain ⟨hsame, -⟩ | ⟨q, -, hstored, -⟩ := hends.stored
        · exact hsame.keeps
        · exact hstored.keeps hgeo hlegal.2

theorem Bytes.Inv.exec (h : s.Inv quantum qset)
    (hgeo : Geometry quantum qset) {calls : List (Call β)}
    (hs : Lib.exec (Bytes.step quantum qset) s calls = some t) :
    t.Inv quantum qset ∧ Keeps qset s.dev t.dev := by
  refine exec_inv (I := fun t => t.Inv quantum qset ∧ Keeps qset s.dev t.dev)
    ?_ ⟨h, fun _ hi => hi⟩ hs
  intro u c v ⟨hu, hkeeps⟩ hv
  obtain ⟨hinv, hkeeps'⟩ := hu.step hgeo hv
  exact ⟨hinv, fun i hi => hkeeps' i (hkeeps i hi)⟩

/-- A device that has just been trimmed. -/
def Bytes.trimmed (p : Params) (dev : ScullDev β) : Bytes β :=
  ⟨scullTrim p dev, fun _ => none⟩

theorem Bytes.inv_trimmed (hgeo : Geometry quantum qset) {p : Params}
    (hquantum : p.scull_quantum = quantum) (hqset : p.scull_qset = qset)
    (dev : ScullDev β) : (Bytes.trimmed p dev).Inv quantum qset where
  quantum_eq := hquantum
  qset_eq := hqset
  fits := by
    have hq : quantum < 2 ^ 31 := Nat.lt_of_le_of_lt
      (Nat.le_mul_of_pos_right quantum hgeo.qset_pos) hgeo.lt
    refine ⟨fun _ hd => absurd hd List.not_mem_nil, ?_, ?_⟩
    · show p.scull_quantum < 2 ^ 31
      omega
    · show -2 ^ 31 ≤ p.scull_qset
      omega
  written := fun _ _ hx => nomatch hx

/-- After every sequence of reads and writes since the last trim the device
acts as an array of bytes, and it has every quantum it ever had. -/
theorem scull_is_byte_array (hgeo : Geometry quantum qset) (p : Params)
    (hquantum : p.scull_quantum = quantum) (hqset : p.scull_qset = qset)
    (dev : ScullDev β) (calls : List (Call β))
    (hs : exec (Bytes.step quantum qset) (Bytes.trimmed p dev) calls =
      some s) :
    ActsAsArray quantum qset s ∧
      ∀ calls₁ calls₂ s₁, calls = calls₁ ++ calls₂ →
        exec (Bytes.step quantum qset) (Bytes.trimmed p dev) calls₁ =
          some s₁ → Keeps qset s₁.dev s.dev := by
  have hinit := Bytes.inv_trimmed hgeo hquantum hqset dev
  refine ⟨(hinit.exec hgeo hs).1.actsAsArray hgeo, ?_⟩
  intro calls₁ calls₂ s₁ hcalls hs₁
  rw [hcalls] at hs
  obtain ⟨u, hu, hs⟩ := exec_append.mp hs
  rw [hs₁] at hu
  cases hu
  exact ((hinit.exec hgeo hs₁).1.exec hgeo hs).2

/-! A write across the end of a quantum, one behind a gap, a read in the gap,
a write whose `kmalloc` fails and one below the end; then a read back. -/

def readsAndWrites : List (Call Nat) :=
  [ .write ⟨[1, 2, 3, 4, 5, 6], false, none, [true, true, true], fun _ => 0⟩ 1,
    .write ⟨[7], false, none, [true, true, true, true], fun _ => 0⟩ 20,
    .read ⟨4, false, false, []⟩ 9,
    .write ⟨[8], false, none, [false], fun _ => 0⟩ 4,
    .write ⟨[9], false, none, [], fun _ => 0⟩ 2 ]

theorem scull_is_byte_array_readsAndWrites : ∃ s : Bytes Nat,
    exec (Bytes.step 4 2) (Bytes.trimmed ⟨4, 2, 0⟩ ⟨[], 0, 0, 0⟩)
      readsAndWrites = some s ∧
    s.written 1 = some 1 ∧ s.written 2 = some 9 ∧ s.written 4 = none ∧
    s.dev.size = 21 ∧
    (∀ r, scullRead s.dev.quantum s.dev.qset s.dev ⟨6, false, false, []⟩ 1 =
      .ok r → ∀ bytes, r.ret = .done bytes → ReadLaw 4 2 s ⟨6, false, false, []⟩
        1 bytes r) ∧
    (scullRead s.dev.quantum s.dev.qset s.dev ⟨6, false, false, []⟩ 1).toOption.map
      Section.ret = some (.done [1, 9, 3]) := by
  have hrun : (exec (Bytes.step 4 2) (Bytes.trimmed ⟨4, 2, 0⟩ ⟨[], 0, 0, 0⟩)
      readsAndWrites).map (fun s => (s.written 1, s.written 2, s.written 4,
        s.dev.size, (scullRead s.dev.quantum s.dev.qset s.dev
          ⟨6, false, false, []⟩ 1).toOption.map Section.ret)) =
      some (some 1, some 9, none, 21, some (.done [1, 9, 3])) := by
    decide +kernel
  obtain ⟨s, hs, hres⟩ := Option.map_eq_some_iff.mp hrun
  simp only [Prod.mk.injEq] at hres
  obtain ⟨h1, h2, h4, hsize, hread⟩ := hres
  have harray := (scull_is_byte_array ⟨by decide, by decide, by decide⟩
    ⟨4, 2, 0⟩ rfl rfl ⟨[], 0, 0, 0⟩ readsAndWrites hs).1
  refine ⟨s, hs, h1, h2, h4, hsize, fun r hr bytes hret => ?_, hread⟩
  obtain ⟨r', hr', hlaw, -⟩ := harray.read ⟨6, false, false, []⟩ 1 (by decide)
  rw [hr] at hr'
  cases hr'
  exact hlaw bytes hret

end LearningLinux.ScullMem
