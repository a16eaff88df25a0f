import Mathlib.Tactic.Ring
import LearningLinux.Lib.CString

/-!
# `itoa` of `klib.c`

A number is written in hexadecimal, four bits at a time from the highest. The
shift is that of a signed number and brings in copies of the sign, but no more
than four bits of it are kept, and these are always bits of the number
(`nibble_eq`).

`flag` suppresses the zeros in front and lets the inner ones pass. What the
loop writes is therefore a numeral without leading zeros, and reading it gives
the number back.
-/

namespace LearningLinux.Console

open LearningLinux.Lib LearningLinux.Lib.ByteMem

/-! ## The function -/

/-- `ch = (num >> i) & 0xF` -/
def nibble (num : BitVec 32) (i : Nat) : UInt8 :=
  UInt8.ofNat (num.sshiftRight i &&& 0xF#32).toNat

/-- `ch += '0'`, and 7 more behind the digits. -/
def hexChar (ch : UInt8) : UInt8 :=
  let ch := ch + '0'.toUInt8
  if ch > '9'.toUInt8 then ch + 7 else ch

/-- So many rounds of the loop are left: `i` is 28 in the first of eight and
0 in the last. -/
def itoaLoop (num : BitVec 32) : Nat → Bool → ByteMem → Nat → ByteMem × Nat
  | 0, _, m, p => (m, p)
  | k + 1, flag, m, p =>
      let ch := nibble num (4 * k)
      if flag ∨ ch > 0 then
        itoaLoop num k true (m.store8 p (hexChar ch).toNat) (p + 1)
      else itoaLoop num k flag m p

/-- The memory behind the call, and the pointer returned. -/
def itoa (m : ByteMem) (str : Nat) (num : BitVec 32) : ByteMem × Nat :=
  let p := str
  let m := m.store8 p '0'.toUInt8.toNat
  let p := p + 1
  let m := m.store8 p 'x'.toUInt8.toNat
  let p := p + 1
  let (m, p) :=
    if num = 0 then (m.store8 p '0'.toUInt8.toNat, p + 1)
    else itoaLoop num 8 false m p
  (m.store8 p 0, str)

/-! ## Numerals -/

/-- The character of a digit. -/
def symbol (d : Nat) : UInt8 :=
  UInt8.ofNat (if d < 10 then 0x30 + d else 0x41 + (d - 10))

/-- The number that some digits stand for, behind others. -/
def valueFrom (v : Nat) (ds : List Nat) : Nat :=
  ds.foldl (fun v d => 16 * v + d) v

/-- `0x` and the shortest numeral of the number, with upper-case letters. -/
def IsHex (n : Nat) (s : List UInt8) : Prop :=
  ∃ ds : List Nat, s = '0'.toUInt8 :: 'x'.toUInt8 :: ds.map symbol ∧
    (∀ d ∈ ds, d < 16) ∧ ds ≠ [] ∧ (ds.head? = some 0 → ds = [0]) ∧
    valueFrom 0 ds = n

/-- The digit of a character. -/
def digitOf (c : UInt8) : Nat :=
  if c.toNat < 0x41 then c.toNat - 0x30 else c.toNat - 0x41 + 10

/-- The string, read back. -/
def readHex (s : List UInt8) : Nat := valueFrom 0 ((s.drop 2).map digitOf)

/-- The call writes this string with its NUL and nothing else, wherever the
string is to go. -/
def Writes (num : BitVec 32) (s : List UInt8) : Prop :=
  ∀ (m : ByteMem) (str : Nat), (itoa m str num).2 = str ∧
    (itoa m str num).1.Holds str (s ++ [0]) ∧
    Outside (fun a => str ≤ a ∧ a ≤ str + s.length) m (itoa m str num).1

variable {num : BitVec 32} {n k v : Nat} {flag : Bool} {s : List UInt8}

theorem nibble_eq (hk : k < 8) :
    nibble num (4 * k) = UInt8.ofNat (num.toNat / 16 ^ k % 16) := by
  have hbits : num.sshiftRight (4 * k) &&& 0xF#32 =
      num >>> (4 * k) &&& 0xF#32 := by
    apply BitVec.eq_of_getLsbD_eq
    intro i hi
    rw [BitVec.getLsbD_and, BitVec.getLsbD_and, BitVec.getLsbD_sshiftRight,
      BitVec.getLsbD_ushiftRight]
    by_cases h4 : i < 4
    · rw [if_pos (by omega), decide_eq_false (by omega)]
      rfl
    · have hmask : (0xF#32).getLsbD i = false := by
        have hall : ∀ i < 32, 4 ≤ i → (0xF#32).getLsbD i = false := by decide
        exact hall i hi (by omega)
      rw [hmask, Bool.and_false, Bool.and_false]
  have hmask (x : Nat) : x &&& 15 = x % 16 := Nat.and_two_pow_sub_one_eq_mod x 4
  rw [nibble, hbits, BitVec.toNat_and, BitVec.toNat_ushiftRight,
    Nat.shiftRight_eq_div_pow, Nat.pow_mul]
  exact congrArg UInt8.ofNat (hmask _)

theorem hexChar_eq {d : Nat} (h : d < 16) :
    hexChar (UInt8.ofNat d) = symbol d := by
  have hall : ∀ d < 16, hexChar (UInt8.ofNat d) = symbol d := by decide
  exact hall d h

theorem digitOf_symbol {d : Nat} (h : d < 16) :
    digitOf (symbol d) = d ∧ symbol d ≠ 0 := by
  have hall : ∀ d < 16, digitOf (symbol d) = d ∧ symbol d ≠ 0 := by decide
  exact hall d h

theorem ofNat_pos {d : Nat} (h : d < 16) : UInt8.ofNat d > 0 ↔ 0 < d := by
  have hall : ∀ d < 16, UInt8.ofNat d > 0 ↔ 0 < d := by decide
  exact hall d h

/-! ## What the loop writes -/

/-- The digits of so many rounds. -/
def emitted (n : Nat) : Nat → Bool → List Nat
  | 0, _ => []
  | k + 1, flag =>
      let d := n / 16 ^ k % 16
      if flag ∨ 0 < d then d :: emitted n k true else emitted n k flag

theorem itoaLoop_eq (hk : k + 1 ≤ 8) (m : ByteMem) (p : Nat) :
    itoaLoop num (k + 1) flag m p =
      if flag ∨ 0 < num.toNat / 16 ^ k % 16 then
        itoaLoop num k true
          (m.store8 p (symbol (num.toNat / 16 ^ k % 16)).toNat) (p + 1)
      else itoaLoop num k flag m p := by
  have hlt : num.toNat / 16 ^ k % 16 < 16 := Nat.mod_lt _ (by decide)
  rw [itoaLoop]
  rw [nibble_eq hk, hexChar_eq hlt]
  exact if_congr (or_congr Iff.rfl (ofNat_pos hlt)) rfl rfl

theorem itoaLoop_spec (hk : k ≤ 8) : ∀ (flag : Bool) (m : ByteMem) (p : Nat),
    let ds := emitted num.toNat k flag
    ∃ m', itoaLoop num k flag m p = (m', p + ds.length) ∧
      m'.Holds p (ds.map symbol) ∧
      Outside (fun a => p ≤ a ∧ a < p + ds.length) m m' := by
  induction k with
  | zero =>
      intro flag m p
      exact ⟨m, rfl, nofun, Outside.refl _ m⟩
  | succ k ih =>
      intro flag m p
      rw [itoaLoop_eq hk, emitted]
      split
      · obtain ⟨m', hrun, hholds, hout⟩ := ih (by omega) true
          (m.store8 p (symbol (num.toNat / 16 ^ k % 16)).toNat) (p + 1)
        have hfirst : m'.byte p = symbol (num.toNat / 16 ^ k % 16) := by
          rw [hout p (by omega)]
          exact (if_pos rfl).trans UInt8.ofNat_toNat
        refine ⟨m', ?_, ?_, ?_⟩
        · rw [hrun, List.length_cons]
          exact congrArg (Prod.mk m') (by omega)
        · intro i hi
          cases i with
          | zero => exact hfirst
          | succ i =>
              have hbyte := hholds i (by simpa using hi)
              rw [Nat.add_right_comm, Nat.add_assoc] at hbyte
              simpa using hbyte
        · intro a ha
          rw [List.length_cons] at ha
          rw [hout a (by omega), store8_apart (by omega)]
      · exact ih (by omega) flag m p

theorem emitted_lt (n : Nat) : ∀ k flag, ∀ d ∈ emitted n k flag, d < 16 := by
  intro k
  induction k with
  | zero => intro _ d hd; cases hd
  | succ k ih =>
      intro flag d hd
      rw [emitted] at hd
      split at hd
      · rcases List.mem_cons.mp hd with rfl | hd
        · exact Nat.mod_lt _ (by decide)
        · exact ih true d hd
      · exact ih flag d hd

theorem emitted_length (n : Nat) : ∀ k flag,
    (emitted n k flag).length ≤ k := by
  intro k
  induction k with
  | zero => intro _; exact Nat.le_refl 0
  | succ k ih =>
      intro flag
      rw [emitted]
      split
      · rw [List.length_cons]
        exact Nat.succ_le_succ (ih true)
      · exact Nat.le_succ_of_le (ih flag)

/-- The lower digits with one more of them. -/
theorem mod_pow_succ (n k : Nat) :
    n % 16 ^ (k + 1) = 16 ^ k * (n / 16 ^ k % 16) + n % 16 ^ k := by
  rw [Nat.pow_succ, Nat.mod_mul, Nat.add_comm]

/-- Behind a digit all of them are written. -/
theorem valueFrom_flagged (n v k : Nat) :
    valueFrom v (emitted n k true) = v * 16 ^ k + n % 16 ^ k := by
  induction k generalizing v with
  | zero => simp [emitted, valueFrom, Nat.mod_one]
  | succ k ih =>
      rw [emitted]
      rw [if_pos (Or.inl rfl)]
      have hstep := ih (16 * v + n / 16 ^ k % 16)
      rw [mod_pow_succ, Nat.pow_succ]
      show valueFrom (16 * v + n / 16 ^ k % 16) (emitted n k true) = _
      rw [hstep]
      ring

/-- Zeros in front do not count. -/
theorem valueFrom_emitted (n k : Nat) :
    valueFrom 0 (emitted n k false) = n % 16 ^ k := by
  induction k with
  | zero => simp [emitted, valueFrom, Nat.mod_one]
  | succ k ih =>
      rw [emitted, mod_pow_succ]
      split
      · have hstep := valueFrom_flagged n (n / 16 ^ k % 16) k
        show valueFrom (16 * 0 + n / 16 ^ k % 16) (emitted n k true) = _
        rw [Nat.mul_zero, Nat.zero_add, hstep, Nat.mul_comm]
      · next h =>
          have hzero : n / 16 ^ k % 16 = 0 := by
            by_contra hne
            exact h (Or.inr (Nat.pos_of_ne_zero hne))
          rw [ih, hzero, Nat.mul_zero, Nat.zero_add]

theorem emitted_head (n k : Nat) : (emitted n k false).head? ≠ some 0 := by
  induction k with
  | zero => nofun
  | succ k ih =>
      rw [emitted]
      split
      · next h =>
          rcases h with h | h
          · cases h
          · intro heq
            exact absurd (Option.some.inj heq) (Nat.ne_of_gt h)
      · exact ih

/-! ## The string -/

/-- The digits that are written. -/
def digitsOf (n : Nat) : List Nat :=
  if n = 0 then [0] else emitted n 8 false

def hexString (n : Nat) : List UInt8 :=
  '0'.toUInt8 :: 'x'.toUInt8 :: (digitsOf n).map symbol

theorem digitsOf_lt (n : Nat) : ∀ d ∈ digitsOf n, d < 16 := by
  intro d hd
  rw [digitsOf] at hd
  split at hd
  · rw [List.mem_singleton.mp hd]
    decide
  · exact emitted_lt n 8 false d hd

theorem valueFrom_digitsOf (h : n < 2 ^ 32) :
    valueFrom 0 (digitsOf n) = n := by
  rw [digitsOf]
  split
  · next h0 => rw [h0]; rfl
  · rw [valueFrom_emitted]
    exact Nat.mod_eq_of_lt (Nat.lt_of_lt_of_le h (by decide))

theorem isHex_hexString (h : n < 2 ^ 32) : IsHex n (hexString n) := by
  have hvalue := valueFrom_digitsOf h
  refine ⟨digitsOf n, rfl, digitsOf_lt n, ?_, ?_, hvalue⟩
  · intro hnil
    rw [hnil] at hvalue
    have h0 : n = 0 := hvalue.symm
    rw [digitsOf, if_pos h0] at hnil
    cases hnil
  · intro hhead
    rw [digitsOf] at hhead ⊢
    split at hhead
    · next h0 => rw [if_pos h0]
    · exact absurd hhead (emitted_head n 8)

theorem hexString_length (n : Nat) : (hexString n).length ≤ 10 := by
  have hlen : (digitsOf n).length ≤ 8 := by
    rw [digitsOf]
    split
    · decide
    · exact emitted_length n 8 false
  simp only [hexString, List.length_cons, List.length_map]
  omega

theorem readHex_hexString (h : n < 2 ^ 32) : readHex (hexString n) = n := by
  have hmap : (digitsOf n).map (digitOf ∘ symbol) = digitsOf n := by
    refine (List.map_congr_left fun d hd => ?_).trans (List.map_id _)
    exact (digitOf_symbol (digitsOf_lt n d hd)).1
  show valueFrom 0 (((digitsOf n).map symbol).map digitOf) = n
  rw [List.map_map, hmap, valueFrom_digitsOf h]

theorem zero_not_mem_hexString (n : Nat) : 0 ∉ hexString n := by
  rw [hexString, List.mem_cons, List.mem_cons, List.mem_map]
  rintro (h | h | ⟨d, hd, h⟩)
  · cases h
  · cases h
  · exact (digitOf_symbol (digitsOf_lt n d hd)).2 h

theorem cstr_hexString {m : ByteMem} (h : m.Holds 1 (hexString n ++ [0])) :
    m.CStr 1 (hexString n) where
  pos := Nat.one_pos
  fits := by
    have hlen := hexString_length n
    omega
  nonzero := zero_not_mem_hexString n
  holds := h

/-! ## The call -/

/-- The two stores in front and the NUL behind. -/
theorem writes_of_digits {ds : List Nat}
    (h : ∀ (m : ByteMem) (p : Nat), ∃ m',
      (if num = 0 then (m.store8 p '0'.toUInt8.toNat, p + 1)
        else itoaLoop num 8 false m p) = (m', p + ds.length) ∧
      m'.Holds p (ds.map symbol) ∧
      Outside (fun a => p ≤ a ∧ a < p + ds.length) m m') :
    Writes num ('0'.toUInt8 :: 'x'.toUInt8 :: ds.map symbol) := by
  intro m str
  obtain ⟨m', hrun, hholds, hout⟩ := h
    ((m.store8 str '0'.toUInt8.toNat).store8 (str + 1) 'x'.toUInt8.toNat)
    (str + 1 + 1)
  have hitoa : itoa m str num =
      (m'.store8 (str + 1 + 1 + ds.length) 0, str) := by
    rw [itoa, hrun]
  have hzero : m'.byte str = '0'.toUInt8 := by
    rw [hout str (by omega), store8_apart (by omega)]
    exact if_pos rfl
  have hx : m'.byte (str + 1) = 'x'.toUInt8 := by
    rw [hout (str + 1) (by omega)]
    exact if_pos rfl
  have hfront : m'.Holds str ('0'.toUInt8 :: 'x'.toUInt8 :: ds.map symbol) := by
    intro i hi
    match i with
    | 0 => exact hzero
    | 1 => exact hx
    | i + 2 =>
        have hbyte := hholds i (by simpa using hi)
        have hplace : str + (i + 2) = str + 1 + 1 + i := by omega
        rw [hplace, hbyte]
        rfl
  have hlen : ('0'.toUInt8 :: 'x'.toUInt8 :: ds.map symbol).length =
      ds.length + 2 := by simp
  rw [hitoa]
  refine ⟨rfl, holds_append.mpr ⟨?_, ?_⟩, ?_⟩
  · refine hfront.outside (outside_store8 rfl m' 0) fun b _ hb heq => ?_
    omega
  · intro i hi
    have hi : i = 0 := by simpa using hi
    subst hi
    have hplace : str + ('0'.toUInt8 :: 'x'.toUInt8 :: ds.map symbol).length +
        0 = str + 1 + 1 + ds.length := by omega
    rw [hplace]
    exact if_pos rfl
  · intro a ha
    rw [store8_apart (by omega), hout a (by omega), store8_apart (by omega),
      store8_apart (by omega)]

theorem writes_hexString (num : BitVec 32) :
    Writes num (hexString num.toNat) := by
  refine writes_of_digits fun m p => ?_
  rw [digitsOf]
  split
  · next h =>
      rw [h, if_pos (by rfl)]
      refine ⟨_, rfl, fun i hi => ?_, fun a ha => store8_apart ?_⟩
      · have hi : i = 0 := by simpa using hi
        subst hi
        exact if_pos rfl
      · intro heq
        exact ha ⟨Nat.le_of_eq heq.symm, by rw [heq]; exact Nat.lt_succ_self p⟩
  · next h =>
      have hne : num.toNat ≠ 0 := fun h0 => h (BitVec.eq_of_toNat_eq h0)
      rw [if_neg hne]
      exact itoaLoop_spec (Nat.le_refl 8) false m p

/-- Every number is written as its shortest upper-case hexadecimal numeral
behind `0x`, in eleven bytes at most with the NUL. Reading the string gives
the number back, and no other number is written so. -/
theorem itoa_hex (num : BitVec 32) : ∃ s, Writes num s ∧
    IsHex num.toNat s ∧ s.length + 1 ≤ 11 ∧ readHex s = num.toNat ∧
    ∀ num', Writes num' s → num' = num := by
  refine ⟨hexString num.toNat, writes_hexString num, isHex_hexString num.isLt,
    Nat.succ_le_succ (hexString_length _), readHex_hexString num.isLt,
    fun num' h => ?_⟩
  have hown := cstr_hexString (writes_hexString num' ⟨fun _ => 0⟩ 1).2.1
  have hsame := hown.unique (cstr_hexString (h ⟨fun _ => 0⟩ 1).2.1)
  refine BitVec.eq_of_toNat_eq ?_
  rw [← readHex_hexString num'.isLt, hsame, readHex_hexString num.isLt]

end LearningLinux.Console
