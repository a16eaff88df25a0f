import Mathlib.Data.Nat.ModEq
import Mathlib.Data.List.Basic
import Mathlib.Logic.Function.Basic

/-!
# Ring buffers

`Ring n buf use fill q` says that the first in, first out queue `q` is stored
in the `n` cells of `buf`, from the cell `use` on and round the end, and that
`fill` is the cell after its last element. Writing at `fill` appends to the
queue, as long as it is not full, and advancing `use` drops its first element.
The same goes for whole blocks of cells that stop at the end of the buffer.
-/

namespace LearningLinux.Lib

variable {α : Type*}

structure Ring (n : Nat) (buf : Nat → α) (use fill : Nat) (q : List α) :
    Prop where
  use_lt : use < n
  fill_eq : fill = (use + q.length) % n
  fits : q.length ≤ n
  cells : ∀ k (h : k < q.length), buf ((use + k) % n) = q[k]

variable {n use fill : Nat} {buf : Nat → α} {q : List α} {v : α}

theorem ring_nil (h : 0 < n) : Ring n buf 0 0 [] where
  use_lt := h
  fill_eq := (Nat.zero_mod n).symm
  fits := Nat.zero_le n
  cells := by intro k hk; exact absurd hk (Nat.not_lt_zero k)

/-- Two offsets below `n` from the same cell that meet are the same. -/
theorem add_mod_inj {a b c : Nat} (ha : a < n) (hb : b < n)
    (h : (c + a) % n = (c + b) % n) : a = b := by
  have hab : a ≡ b [MOD n] := Nat.ModEq.add_left_cancel' c h
  rwa [Nat.ModEq, Nat.mod_eq_of_lt ha, Nat.mod_eq_of_lt hb] at hab

theorem Ring.push (h : Ring n buf use fill q) (hlt : q.length < n) :
    Ring n (Function.update buf fill v) use ((fill + 1) % n) (q ++ [v]) where
  use_lt := h.use_lt
  fill_eq := by
    rw [h.fill_eq, Nat.mod_add_mod, List.length_append, List.length_singleton,
      Nat.add_assoc]
  fits := by
    rw [List.length_append, List.length_singleton]
    exact hlt
  cells := by
    intro k hk
    rw [List.length_append, List.length_singleton] at hk
    by_cases hlast : k = q.length
    · subst hlast
      rw [← h.fill_eq, Function.update_self, List.getElem_concat_length rfl]
    · have hkq : k < q.length := by omega
      have hne : (use + k) % n ≠ fill := by
        rw [h.fill_eq]
        intro heq
        exact hlast (add_mod_inj (by omega) hlt heq)
      rw [Function.update_of_ne hne, h.cells k hkq,
        List.getElem_append_left hkq]

theorem Ring.head (h : Ring n buf use fill (v :: q)) : buf use = v := by
  have h0 := h.cells 0 (Nat.zero_lt_succ _)
  rwa [Nat.add_zero, Nat.mod_eq_of_lt h.use_lt] at h0

theorem Ring.pop (h : Ring n buf use fill (v :: q)) :
    Ring n buf ((use + 1) % n) fill q where
  use_lt := Nat.mod_lt _ (Nat.zero_lt_of_lt h.use_lt)
  fill_eq := by
    rw [h.fill_eq, Nat.mod_add_mod, List.length_cons, Nat.add_assoc,
      Nat.add_comm 1]
  fits := Nat.le_of_succ_le h.fits
  cells := by
    intro k hk
    have hsucc := h.cells (k + 1) (Nat.succ_lt_succ hk)
    rwa [Nat.mod_add_mod, Nat.add_assoc, Nat.add_comm 1]

/-! ## Blocks -/

/-- The cells from `use` up to `fill`, in order. -/
def ringList (n : Nat) (buf : Nat → α) (use fill : Nat) : List α :=
  (List.range ((fill + n - use) % n)).map fun k => buf ((use + k) % n)

/-- `bytes` are written from the cell `start` on. -/
def overlay (buf : Nat → α) (start : Nat) (bytes : List α) : Nat → α :=
  fun i => if h : start ≤ i ∧ i - start < bytes.length then bytes[i - start]
    else buf i

variable {bytes : List α} {count : Nat}

theorem overlay_inside {start k : Nat} (h : k < bytes.length) :
    overlay buf start bytes (start + k) = bytes[k] := by
  have hin : start ≤ start + k ∧ start + k - start < bytes.length := by omega
  rw [overlay, dif_pos hin]
  simp only [Nat.add_sub_cancel_left]

theorem overlay_outside {start i : Nat}
    (h : ¬ (start ≤ i ∧ i - start < bytes.length)) :
    overlay buf start bytes i = buf i :=
  dif_neg h

/-- The cell `count` after the end of the queue, before the buffer ends. -/
theorem Ring.fill_add (h : Ring n buf use fill q) (count : Nat) (hend : fill + count < n) :
    (use + (q.length + count)) % n = fill + count := by
  rw [← Nat.add_assoc, ← Nat.mod_add_mod, ← h.fill_eq, Nat.mod_eq_of_lt hend]

/-- The free cells behind the queue are none of its own. -/
theorem Ring.outside (h : Ring n buf use fill q)
    (hroom : q.length + count ≤ n) (hend : fill + count ≤ n) {k : Nat}
    (hk : k < q.length) :
    ¬ (fill ≤ (use + k) % n ∧ (use + k) % n - fill < count) := by
  intro ⟨hle, hlt⟩
  have hcell := h.fill_add ((use + k) % n - fill) (by omega)
  have hsame : (use + (q.length + ((use + k) % n - fill))) % n =
      (use + k) % n := by omega
  have hlen := add_mod_inj (by omega) (by omega) hsame
  omega

/-- What is written behind the queue does not touch it. -/
theorem Ring.overlay (h : Ring n buf use fill q) (bytes : List α)
    (hroom : q.length + bytes.length ≤ n) (hend : fill + bytes.length ≤ n) :
    Ring n (overlay buf fill bytes) use fill q where
  use_lt := h.use_lt
  fill_eq := h.fill_eq
  fits := h.fits
  cells := by
    intro k hk
    rw [overlay_outside (h.outside hroom hend hk), h.cells k hk]

theorem Ring.pushBlock (h : Ring n buf use fill q) (bytes : List α)
    (hroom : q.length + bytes.length ≤ n) (hend : fill + bytes.length ≤ n) :
    Ring n (Lib.overlay buf fill bytes) use ((fill + bytes.length) % n)
      (q ++ bytes) where
  use_lt := h.use_lt
  fill_eq := by
    rw [h.fill_eq, Nat.mod_add_mod, List.length_append, Nat.add_assoc]
  fits := by
    rw [List.length_append]
    exact hroom
  cells := by
    intro k hk
    rw [List.length_append] at hk
    by_cases hold : k < q.length
    · rw [(h.overlay bytes hroom hend).cells k hold, List.getElem_append_left hold]
    · obtain ⟨j, rfl⟩ : ∃ j, k = q.length + j := ⟨k - q.length, by omega⟩
      rw [h.fill_add j (by omega), overlay_inside (by omega),
        List.getElem_append_right (Nat.le_add_right _ _)]
      simp only [Nat.add_sub_cancel_left]

theorem Ring.popBlock (h : Ring n buf use fill (bytes ++ q)) :
    Ring n buf ((use + bytes.length) % n) fill q where
  use_lt := Nat.mod_lt _ (Nat.zero_lt_of_lt h.use_lt)
  fill_eq := by
    rw [h.fill_eq, Nat.mod_add_mod, List.length_append, Nat.add_assoc]
  fits := by
    have hfits := h.fits
    rw [List.length_append] at hfits
    omega
  cells := by
    intro k hk
    have hcell := h.cells (bytes.length + k) (by
      rw [List.length_append]
      omega)
    rw [Nat.mod_add_mod, Nat.add_assoc, hcell,
      List.getElem_append_right (Nat.le_add_right _ _)]
    simp only [Nat.add_sub_cancel_left]

/-- The first `count` cells of the queue, if they do not cross the end. -/
theorem Ring.takeBlock (h : Ring n buf use fill q) (hcount : count ≤ q.length)
    (hend : use + count ≤ n) :
    (List.range count).map (fun k => buf (use + k)) = q.take count := by
  apply List.ext_getElem
  · simp [hcount]
  · intro k hk _
    simp only [List.length_map, List.length_range] at hk
    have hcell := h.cells k (by omega)
    rw [Nat.mod_eq_of_lt (by omega)] at hcell
    simp [hcell]

/-- A queue that does not fill the buffer is given by its two ends. -/
theorem Ring.length_eq (h : Ring n buf use fill q) (hlt : q.length < n) :
    (fill + n - use) % n = q.length := by
  have huse := h.use_lt
  rw [h.fill_eq]
  by_cases hwrap : use + q.length < n
  · rw [Nat.mod_eq_of_lt hwrap]
    have hsum : use + q.length + n - use = q.length + n := by omega
    rw [hsum, Nat.add_mod_right, Nat.mod_eq_of_lt hlt]
  · have hmod : (use + q.length) % n = use + q.length - n := by
      rw [Nat.mod_eq_sub_mod (by omega), Nat.mod_eq_of_lt (by omega)]
    have hsum : use + q.length - n + n - use = q.length := by omega
    rw [hmod, hsum, Nat.mod_eq_of_lt hlt]

theorem Ring.eq_ringList (h : Ring n buf use fill q) (hlt : q.length < n) :
    ringList n buf use fill = q := by
  rw [ringList, h.length_eq hlt]
  apply List.ext_getElem
  · simp
  · intro k hk _
    simp only [List.length_map, List.length_range] at hk
    simp [h.cells k hk]

end LearningLinux.Lib
