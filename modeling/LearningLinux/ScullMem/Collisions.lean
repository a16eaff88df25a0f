import LearningLinux.ScullMem.Bytes

/-!
# Positions that share their bytes

The number of an item is computed with 64 bits and narrowed to an `int`, and
`while (n--)` goes round as often as its 32 bits say. So positions that differ
by a multiple of `span`, the bytes of 2^32 items, have the same place: a seek
goes there, a write allocates nothing new, and what was there is overwritten.

Nothing else is shared. Below item number 2^31 this is what `Bytes` is about;
here the positions are all the ones that there are.
-/

namespace LearningLinux.ScullMem

open LearningLinux.Lib
open LearningLinux.Scull (intOf SCULL_QUANTUM SCULL_QSET)

variable {β : Type*} {quantum qset : Nat} {dev dev' : ScullDev β}
  {pos x y : Nat}

def span (quantum qset : Nat) : Nat := quantum * qset * 2 ^ 32

/-- The byte of a position, where a call looks for it. -/
def ScullDev.cell (quantum qset : Int) (dev : ScullDev β) (x : Nat) :
    Option β :=
  (dev.slot (place quantum qset x).hops
    (place quantum qset x).s_pos.toNat).map fun q =>
      q.mem (place quantum qset x).q_pos.toNat

/-- A buffer that is written at `pos` spares the byte `b` of position `x`:
where a byte of it would go to a place that `x` has too, it is the same. What
is beyond the quantum is not written. -/
def Spares (quantum qset pos : Nat) (buf : List β) (x : Nat) (b : β) : Prop :=
  ∀ i v, buf[i]? = some v → pos % quantum + i < quantum →
    (pos + i) % span quantum qset = x % span quantum qset → v = b

/-! ## Places -/

theorem intOf_eq_iff {a b : Nat} :
    intOf a = intOf b ↔ a % 2 ^ 32 = b % 2 ^ 32 := by
  constructor
  · intro h
    have hmod := congrArg (· % (2 ^ 32 : Int)) h
    simp only [intOf] at hmod
    have ha := Int.bmod_emod (x := (a : Int)) (m := 2 ^ 32)
    have hb := Int.bmod_emod (x := (b : Int)) (m := 2 ^ 32)
    omega
  · intro h
    have ha := Int.emod_bmod (a : Int) (2 ^ 32)
    have hb := Int.emod_bmod (b : Int) (2 ^ 32)
    rw [intOf, intOf, ← ha, ← hb]
    exact congrArg (Int.bmod · (2 ^ 32)) (by omega)

theorem mod_span_iff : x % span quantum qset = y % span quantum qset ↔
    x / quantum / qset % 2 ^ 32 = y / quantum / qset % 2 ^ 32 ∧
      x / quantum % qset = y / quantum % qset ∧ x % quantum = y % quantum := by
  have hsplit (z : Nat) : z % span quantum qset =
      z % quantum + quantum * (z / quantum % qset) +
        quantum * qset * (z / quantum / qset % 2 ^ 32) := by
    rw [span, Nat.mod_mul, Nat.mod_mul, Nat.div_div_eq_div_mul]
  constructor
  · intro h
    have hitem : x / (quantum * qset) % 2 ^ 32 =
        y / (quantum * qset) % 2 ^ 32 := by
      rw [← Nat.mod_mul_right_div_self, ← Nat.mod_mul_right_div_self]
      exact congrArg (· / (quantum * qset)) h
    have hrest : x % (quantum * qset) = y % (quantum * qset) := by
      rw [← Nat.mod_mul_right_mod x _ (2 ^ 32),
        ← Nat.mod_mul_right_mod y _ (2 ^ 32)]
      exact congrArg (· % (quantum * qset)) h
    rw [← Nat.div_div_eq_div_mul, ← Nat.div_div_eq_div_mul] at hitem
    refine ⟨hitem, ?_, ?_⟩
    · rw [← Nat.mod_mul_right_div_self, hrest, Nat.mod_mul_right_div_self]
    · rw [← Nat.mod_mul_right_mod x quantum qset, hrest,
        Nat.mod_mul_right_mod]
  · intro ⟨hitem, hslot, hbyte⟩
    rw [hsplit, hsplit, hitem, hslot, hbyte]

/-- Two positions have one place if and only if they differ by a multiple of
the span. -/
theorem Geometry.place_eq_iff (h : Geometry quantum qset) :
    place quantum qset x = place quantum qset y ↔
      x % span quantum qset = y % span quantum qset := by
  rw [mod_span_iff, h.place_narrowed, h.place_narrowed, Place.mk.injEq,
    intOf_eq_iff, Int.ofNat_inj, Int.ofNat_inj]

theorem Geometry.cell_eq (h : Geometry quantum qset) (dev : ScullDev β)
    (x : Nat) : dev.cell quantum qset x =
      (dev.slot (x / quantum / qset % 2 ^ 32) (x / quantum % qset)).map
        fun q => q.mem (x % quantum) := by
  obtain ⟨hhops, hs_pos, hq_pos⟩ := h.place_parts x
  rw [ScullDev.cell, hhops, hs_pos, hq_pos]

/-! ## Writes -/

section Stored

variable {q : Block β} {bytes : List β}

theorem Stored.cell (hgeo : Geometry quantum qset)
    (h : Stored dev dev' (place quantum qset pos) q bytes) (x : Nat) :
    dev'.cell quantum qset x =
      if x / quantum / qset % 2 ^ 32 = pos / quantum / qset % 2 ^ 32 ∧
          x / quantum % qset = pos / quantum % qset then
        some (overlay q.mem (pos % quantum) bytes (x % quantum))
      else dev.cell quantum qset x := by
  obtain ⟨hhops, hs_pos, hq_pos⟩ := hgeo.place_parts pos
  rw [hgeo.cell_eq, hgeo.cell_eq, h.slot, hhops, hs_pos, hq_pos]
  split
  · rfl
  · rfl

/-- A position with the place of a byte that was stored holds this byte. -/
theorem Stored.cell_inside (hgeo : Geometry quantum qset)
    (h : Stored dev dev' (place quantum qset pos) q bytes)
    (hlen : pos % quantum + bytes.length ≤ quantum) {i : Nat}
    (hi : i < bytes.length)
    (hx : (pos + i) % span quantum qset = x % span quantum qset) :
    dev'.cell quantum qset x = some bytes[i] := by
  obtain ⟨hdiv, hmod⟩ := same_quantum hgeo.quantum_pos hlen hi
  obtain ⟨hitem, hslot, hbyte⟩ := mod_span_iff.mp hx
  rw [hdiv] at hitem hslot
  rw [h.cell hgeo, if_pos ⟨hitem.symm, hslot.symm⟩, ← hbyte, hmod,
    overlay_inside hi]

/-- The others hold what they did. -/
theorem Stored.cell_outside (hgeo : Geometry quantum qset)
    (h : Stored dev dev' (place quantum qset pos) q bytes)
    (hq : ∀ q', dev.slot (place quantum qset pos).hops
      (place quantum qset pos).s_pos.toNat = some q' → q' = q)
    (hlen : pos % quantum + bytes.length ≤ quantum)
    (hx : ∀ i < bytes.length,
      (pos + i) % span quantum qset ≠ x % span quantum qset) {v : β}
    (hv : dev.cell quantum qset x = some v) :
    dev'.cell quantum qset x = some v := by
  obtain ⟨hhops, hs_pos, -⟩ := hgeo.place_parts pos
  rw [h.cell hgeo]
  split
  · next hsame =>
      rw [hgeo.cell_eq, hsame.1, hsame.2, ← hhops, ← hs_pos] at hv
      obtain ⟨q', hq', hmem⟩ := Option.map_eq_some_iff.mp hv
      rw [overlay_outside, ← hq q' hq', hmem]
      -- a byte of the range would have been stored for this position
      intro ⟨hle, hlt⟩
      obtain ⟨i, hi⟩ := Nat.exists_eq_add_of_le hle
      have hlt : i < bytes.length := by omega
      obtain ⟨hdiv, hmod⟩ := same_quantum hgeo.quantum_pos hlen hlt
      refine hx i hlt (mod_span_iff.mpr ?_)
      rw [hdiv, hmod]
      exact ⟨hsame.1.symm, hsame.2.symm, hi.symm⟩
  · exact hv

end Stored

/-- A write that succeeds stores what its quantum takes, and some of it if
there is any. -/
theorem write_stores {c : WriteCall β} {r : Section β} {bytes : List β}
    (hgeo : Geometry quantum qset)
    (h : scullWrite quantum qset dev c pos = .ok r)
    (hret : r.ret = .done bytes) :
    bytes = c.buf.take (quantum - pos % quantum) ∧
      ∃ q, Stored dev r.dev (place quantum qset pos) q bytes ∧
        ∀ q', dev.slot (place quantum qset pos).hops
          (place quantum qset pos).s_pos.toNat = some q' → q' = q := by
  cases scullWrite_cases h with
  | interrupted _ => cases hret
  | nomem dev' _ _ => cases hret
  | fault dev' q left _ _ _ _ => cases hret
  | moved dev' q count _ _ hcount hq hstored _ =>
      cases hret
      refine ⟨?_, q, hstored, fun q' hq' => ?_⟩
      · rw [hcount, hgeo.upToEnd_eq]
        exact List.take_eq_take_iff.mpr (by omega)
      · rw [hq'] at hq
        exact hq

/-- The write at `pos` leaves the byte of `x` alone if and only if it spares
it. -/
theorem write_keeps_iff {c : WriteCall β} {r : Section β} {bytes : List β}
    {b : β} (hgeo : Geometry quantum qset)
    (h : scullWrite quantum qset dev c pos = .ok r)
    (hret : r.ret = .done bytes) (hx : dev.cell quantum qset x = some b) :
    r.dev.cell quantum qset x = some b ↔ Spares quantum qset pos c.buf x b := by
  obtain ⟨rfl, q, hstored, hq⟩ := write_stores hgeo h hret
  have hlt := Nat.mod_lt pos hgeo.quantum_pos
  have hlen : pos % quantum + (c.buf.take (quantum - pos % quantum)).length ≤
      quantum := by
    rw [List.length_take]
    omega
  constructor
  · intro hkept i v hv hi heq
    obtain ⟨hbound, hget⟩ := List.getElem?_eq_some_iff.mp hv
    have hbound : i < (c.buf.take (quantum - pos % quantum)).length := by
      rw [List.length_take]
      omega
    have hin := hstored.cell_inside hgeo hlen hbound heq
    rw [List.getElem_take, hget, hkept] at hin
    exact (Option.some.inj hin).symm
  · intro hspares
    by_cases hhit : ∃ i, ∃ hi : i < (c.buf.take (quantum -
        pos % quantum)).length,
        (pos + i) % span quantum qset = x % span quantum qset
    · obtain ⟨i, hi, heq⟩ := hhit
      rw [hstored.cell_inside hgeo hlen hi heq]
      rw [List.length_take] at hi
      refine congrArg some (hspares i _ ?_ (by omega) heq)
      rw [List.getElem_take]
      exact List.getElem?_eq_getElem _
    · exact hstored.cell_outside hgeo hq hlen
        (fun i hi heq => hhit ⟨i, hi, heq⟩) hx

/-- The first byte of a write is at its position. -/
theorem write_first {c : WriteCall β} {r : Section β} {bytes : List β} {b : β}
    (hgeo : Geometry quantum qset)
    (h : scullWrite quantum qset dev c pos = .ok r)
    (hret : r.ret = .done bytes) (hb : c.buf.head? = some b) :
    r.dev.cell quantum qset pos = some b := by
  obtain ⟨rfl, q, hstored, -⟩ := write_stores hgeo h hret
  have hlt := Nat.mod_lt pos hgeo.quantum_pos
  obtain ⟨rest, hbuf⟩ := List.head?_eq_some_iff.mp hb
  have hlen : (c.buf.take (quantum - pos % quantum)).length =
      min (quantum - pos % quantum) (rest.length + 1) := by
    rw [List.length_take, hbuf, List.length_cons]
  have hi : 0 < (c.buf.take (quantum - pos % quantum)).length := by omega
  have hin := hstored.cell_inside hgeo (by omega) hi (x := pos) rfl
  rw [List.getElem_take] at hin
  simpa [hbuf] using hin

/-! ## The default geometry -/

theorem default_geometry : Geometry 4000 1000 := ⟨by simp, by simp, by simp⟩

/-- Positions share a place if and only if they differ by a multiple of
2^32 items. So the byte that one write stores at its position survives a later
write if and only if the later one spares it. -/
theorem writes_apart_iff {c c' : WriteCall β} {pos pos' : Nat}
    {r r' : Section β} {bytes bytes' : List β} {b : β}
    (h : scullWrite SCULL_QUANTUM SCULL_QSET dev c pos = .ok r)
    (hret : r.ret = .done bytes) (hb : c.buf.head? = some b)
    (hlater : dev'.cell SCULL_QUANTUM SCULL_QSET pos =
      r.dev.cell SCULL_QUANTUM SCULL_QSET pos)
    (h' : scullWrite SCULL_QUANTUM SCULL_QSET dev' c' pos' = .ok r')
    (hret' : r'.ret = .done bytes') :
    (∀ x y, place SCULL_QUANTUM SCULL_QSET x =
        place SCULL_QUANTUM SCULL_QSET y ↔
      x % span 4000 1000 = y % span 4000 1000) ∧
    r.dev.cell SCULL_QUANTUM SCULL_QSET pos = some b ∧
    (r'.dev.cell SCULL_QUANTUM SCULL_QSET pos = some b ↔
      Spares 4000 1000 pos' c'.buf pos b) := by
  have hfirst := write_first default_geometry h hret hb
  exact ⟨fun x y => default_geometry.place_eq_iff, hfirst,
    write_keeps_iff default_geometry h' hret' (hlater.trans hfirst)⟩

/-- One byte at a position, with memory for all that it needs. -/
def oneByte (b : β) : WriteCall β :=
  ⟨[b], false, none, [true, true, true], fun _ => b⟩

def emptyDev : ScullDev β := ⟨[], SCULL_QUANTUM, SCULL_QSET, 0⟩

/-- The quantum behind the first one is another. -/
theorem writes_apart_iff_next : ∃ r r' : Section Bool,
    scullWrite SCULL_QUANTUM SCULL_QSET emptyDev (oneByte false) 0 = .ok r ∧
    scullWrite SCULL_QUANTUM SCULL_QSET r.dev (oneByte true) 4000 = .ok r' ∧
    (∀ x y, place SCULL_QUANTUM SCULL_QSET x =
        place SCULL_QUANTUM SCULL_QSET y ↔
      x % span 4000 1000 = y % span 4000 1000) ∧
    r.dev.cell SCULL_QUANTUM SCULL_QSET 0 = some false ∧
    (r'.dev.cell SCULL_QUANTUM SCULL_QSET 0 = some false ↔
      Spares 4000 1000 4000 [true] 0 false) := by
  have hruns : ∃ r : Section Bool, scullWrite SCULL_QUANTUM SCULL_QSET
      emptyDev (oneByte false) 0 = .ok r ∧ r.ret = .done [false] ∧
      ∃ r' : Section Bool, scullWrite SCULL_QUANTUM SCULL_QSET r.dev
        (oneByte true) 4000 = .ok r' ∧ r'.ret = .done [true] :=
    ⟨_, rfl, rfl, _, rfl, rfl⟩
  obtain ⟨r, h, hret, r', h', hret'⟩ := hruns
  exact ⟨r, r', h, h', writes_apart_iff h hret rfl rfl h' hret'⟩

/-- A byte is written to the new device at position 0, and another one at
2^32 items, where a seek goes. The first is gone. -/
theorem writes_not_apart : ∃ r r' : Section Bool,
    scullWrite SCULL_QUANTUM SCULL_QSET emptyDev (oneByte false) 0 = .ok r ∧
    r.ret = .done [false] ∧
    scullLlseek r.dev 1 (span 4000 1000) 0 = some (span 4000 1000) ∧
    scullWrite SCULL_QUANTUM SCULL_QSET r.dev (oneByte true)
      (span 4000 1000) = .ok r' ∧
    r'.ret = .done [true] ∧
    r.dev.cell SCULL_QUANTUM SCULL_QSET 0 = some false ∧
    r'.dev.cell SCULL_QUANTUM SCULL_QSET 0 = some true :=
  ⟨_, _, rfl, rfl, rfl, rfl, rfl, rfl, rfl⟩

end LearningLinux.ScullMem
