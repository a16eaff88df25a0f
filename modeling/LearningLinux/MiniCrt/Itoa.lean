import Mathlib.Data.Nat.Digits.Lemmas
import LearningLinux.Lib.CString

/-!
# `itoa`, as `string.c` computes it

The digits are written last one first, by repeated division, and then turned
round in place. The quotient and the remainder of C round towards zero, so
the remainder of a negative number is negative; `itoa` negates first, but the
negative of the least `int` is that `int` again, and its remainder then
selects an element in front of the table of digits. Reading there is
undefined, and `none` here; nothing else makes the function fail.
-/

namespace LearningLinux.MiniCrt

open Lib

/-- A value as an `int` holds it. -/
def int32 (n : Int) : Int := n.bmod (2 ^ 32)

/-- `digit`, with the NUL that ends it. -/
def digit : List UInt8 :=
  "0123456789ABCDEFGHIJKLMNOPQRSTUVWXYZ".toList.map
    (fun c => UInt8.ofNat c.toNat) ++ [0]

/-- `digit[i]`. -/
def digitAt (i : Int) : Option UInt8 := if i < 0 then none else digit[i.toNat]?

/-- The loop that writes the digits of `n`, with the `p` after it. An `int`
has 32 digits at most. -/
def itoaDigits (radix : Int) : Nat → ByteMem → Nat → Int →
    Option (ByteMem × Nat)
  | 0, _, _, _ => none
  | fuel + 1, m, p, n =>
      if n = 0 then some (m, p)
      else do
        let d ← digitAt (n.tmod radix)
        itoaDigits radix fuel (m.store8 p d.toNat) (p + 1) (n.tdiv radix)

/-- The loop that turns the bytes from `head` to `p` round. It takes fewer
rounds than there are bytes between the two. -/
def itoaReverse : Nat → ByteMem → Nat → Nat → ByteMem
  | 0, m, _, _ => m
  | fuel + 1, m, head, p =>
      if head < p then
        let temp := m.load8 head
        let m := m.store8 head (m.load8 p)
        let m := m.store8 p temp
        itoaReverse fuel m (head + 1) (p - 1)
      else m

/-- The memory that `itoa` leaves and the pointer that it returns. -/
def itoa (m : ByteMem) (n : Int) (str : Nat) (radix : Int) :
    Option (ByteMem × Nat) :=
  let p := str
  let head := str
  if p = 0 ∨ radix < 2 ∨ radix > 36 then some (m, p)
  else if radix ≠ 10 ∧ n < 0 then some (m, p)
  else if n = 0 then
    let m := m.store8 p 0x30
    let p := p + 1
    let m := m.store8 p 0
    some (m, str)
  else do
    let (m, p, head, n) :=
      if radix = 10 ∧ n < 0 then
        (m.store8 p 0x2D, p + 1, head + 1, int32 (-n))
      else (m, p, head, n)
    let (m, p) ← itoaDigits radix 33 m p n
    let m := m.store8 p 0
    let p := p - 1
    some (itoaReverse (p - head) m head p, str)

/-! ## The digits -/

def digitByte (d : Nat) : UInt8 := digit.getD d 0

theorem digitAt_eq {d : Nat} (h : d < 36) :
    digitAt d = some (digitByte d) := by
  have hlen : digit.length = 37 := by decide +kernel
  have hlt : d < digit.length := by omega
  have hneg : ¬ (d : Int) < 0 := by omega
  rw [digitAt, if_neg hneg, Int.toNat_natCast, digitByte,
    List.getD_eq_getElem?_getD, List.getElem?_eq_getElem hlt, Option.getD_some]

theorem digitByte_ne_zero {d : Nat} (h : d < 36) : digitByte d ≠ 0 := by
  have hall : ∀ i < 36, digitByte i ≠ 0 := by decide +kernel
  exact hall d h

variable {m : ByteMem} {p : Nat}

theorem byte_store8 (m : ByteMem) (a v i : Nat) :
    (m.store8 a v).byte i = if i = a then UInt8.ofNat v else m.byte i := rfl

/-- The loop leaves the digits of `n`, the lowest first. -/
theorem itoaDigits_spec {radix : Nat} (hr : 2 ≤ radix) (hr' : radix ≤ 36) :
    ∀ {fuel n p : Nat} {m : ByteMem}, (Nat.digits radix n).length < fuel →
      ∃ m', itoaDigits radix fuel m p n =
          some (m', p + (Nat.digits radix n).length) ∧
        m'.Holds p ((Nat.digits radix n).map digitByte) ∧
        ByteMem.Outside
          (fun a => p ≤ a ∧ a < p + (Nat.digits radix n).length) m m' := by
  intro fuel
  induction fuel with
  | zero => intro n p m hf; exact absurd hf (Nat.not_lt_zero _)
  | succ fuel ih =>
      intro n p m hf
      by_cases h0 : n = 0
      · subst h0
        rw [itoaDigits, if_pos Int.natCast_zero, Nat.digits_zero]
        exact ⟨m, rfl, nofun, ByteMem.Outside.refl _ m⟩
      · have hdigits : Nat.digits radix n =
            n % radix :: Nat.digits radix (n / radix) :=
          Nat.digits_eq_cons_digits_div (by omega) h0
        rw [hdigits, List.length_cons] at hf
        have hlt : n % radix < 36 :=
          Nat.lt_of_lt_of_le (Nat.mod_lt _ (by omega)) hr'
        obtain ⟨m', hrun, hholds, hout⟩ :=
          @ih (n / radix) (p + 1) (m.store8 p (digitByte (n % radix)).toNat)
            (by omega)
        have hne : ¬ (n : Int) = 0 := by omega
        have hcode : itoaDigits radix (fuel + 1) m p n =
            itoaDigits radix fuel (m.store8 p (digitByte (n % radix)).toNat)
              (p + 1) (n / radix : Nat) := by
          rw [itoaDigits, if_neg hne, ← Int.ofNat_tmod, digitAt_eq hlt,
            ← Int.ofNat_tdiv]
          rfl
        rw [hcode, hrun, hdigits, List.length_cons, List.map_cons]
        refine ⟨m', by rw [Nat.add_assoc, Nat.add_comm 1], ?_, ?_⟩
        · intro i hi
          cases i with
          | zero =>
              rw [Nat.add_zero, hout p (by omega), byte_store8, if_pos rfl,
                UInt8.ofNat_toNat]
              rfl
          | succ i =>
              have hi' : i < ((Nat.digits radix (n / radix)).map
                  digitByte).length := by simpa using hi
              have hshift : p + (i + 1) = p + 1 + i := by omega
              rw [hshift, hholds i hi']
              rfl
        · intro a ha
          rw [hout a (by omega), byte_store8, if_neg (by omega)]

/-! ## Turning round -/

/-- Every byte from `head` to `p` changes places with its mirror image. -/
theorem itoaReverse_byte : ∀ {fuel head p : Nat} {m : ByteMem} (a : Nat),
    p - head ≤ fuel → (itoaReverse fuel m head p).byte a =
      if head ≤ a ∧ a ≤ p then m.byte (head + p - a) else m.byte a := by
  intro fuel
  induction fuel with
  | zero =>
      intro head p m a hf
      rw [itoaReverse]
      split
      · next h => rw [show head + p - a = a by omega]
      · rfl
  | succ fuel ih =>
      intro head p m a hf
      rw [itoaReverse]
      split
      · next hlt =>
          dsimp only
          rw [ih a (by omega), ByteMem.load8, ByteMem.load8]
          simp only [byte_store8, UInt8.ofNat_toNat]
          by_cases hin : head ≤ a ∧ a ≤ p
          · rw [if_pos hin]
            rcases Nat.lt_trichotomy a head with h | rfl | h
            · omega
            · -- the lower of the two that are exchanged
              rw [if_neg (by omega), if_neg (by omega), if_pos rfl,
                Nat.add_sub_cancel_left]
            · by_cases hap : a = p
              · rw [if_neg (by omega), if_pos hap, hap, Nat.add_sub_cancel]
              · rw [if_pos (by omega), if_neg (by omega), if_neg (by omega),
                  show head + 1 + (p - 1) - a = head + p - a by omega]
          · rw [if_neg hin, if_neg (by omega), if_neg (by omega),
              if_neg (by omega)]
      · next hle =>
          split
          · next h => rw [show head + p - a = a by omega]
          · rfl

theorem itoaReverse_holds {head : Nat} {ds : List UInt8}
    (h : m.Holds head ds) :
    (itoaReverse (head + ds.length - 1 - head) m head
      (head + ds.length - 1)).Holds head ds.reverse := by
  intro i hi
  rw [List.length_reverse] at hi
  rw [itoaReverse_byte _ (Nat.le_refl _), if_pos (by omega),
    List.getElem_reverse]
  have hmirror : head + (head + ds.length - 1) - (head + i) =
      head + (ds.length - 1 - i) := by omega
  rw [hmirror]
  exact h _ (by omega)

/-! ## The numeral -/

/-- The digits of a number, the highest first. -/
def digitsOf (radix n : Nat) : List Nat :=
  if n = 0 then [0] else (Nat.digits radix n).reverse

/-- The numeral that stands for an integer. -/
def numeral (radix : Nat) (n : Int) : List UInt8 :=
  (if n < 0 then [0x2D] else []) ++ (digitsOf radix n.natAbs).map digitByte

/-- What is left to do for a number that is not zero: the digits, the NUL and
the turn. -/
theorem itoa_digits {radix n : Nat} (hr : 2 ≤ radix) (hr' : radix ≤ 36)
    (h0 : n ≠ 0) (hlen : (digitsOf radix n).length < 33) (m : ByteMem)
    (head : Nat) :
    ∃ m' p, itoaDigits radix 33 m head n = some (m', p) ∧
      (itoaReverse (p - 1 - head) (m'.store8 p 0) head (p - 1)).Holds head
        ((digitsOf radix n).map digitByte ++ [0]) ∧
      ByteMem.Outside
        (fun a => head ≤ a ∧ a ≤ head + (digitsOf radix n).length) m
        (itoaReverse (p - 1 - head) (m'.store8 p 0) head (p - 1)) := by
  rw [digitsOf, if_neg h0] at hlen ⊢
  rw [List.length_reverse] at hlen ⊢
  obtain ⟨m', hrun, hholds, hout⟩ := @itoaDigits_spec radix hr hr' 33 n head m hlen
  have hpos : 0 < (Nat.digits radix n).length :=
    List.length_pos_iff.mpr (Nat.digits_ne_nil_iff_ne_zero.mpr h0)
  let p := head + (Nat.digits radix n).length
  have hdigits : (m'.store8 p 0).Holds head
      ((Nat.digits radix n).map digitByte) := by
    intro i hi
    rw [byte_store8, if_neg (by rw [List.length_map] at hi; omega)]
    exact hholds i hi
  have hturned := itoaReverse_holds hdigits
  rw [List.length_map] at hturned
  refine ⟨m', p, hrun, ?_, ?_⟩
  · rw [List.map_reverse]
    refine ByteMem.holds_append.mpr ⟨hturned, fun i hi => ?_⟩
    obtain rfl : i = 0 := by simpa using hi
    rw [List.length_reverse, List.length_map, Nat.add_zero,
      itoaReverse_byte _ (Nat.le_refl _), if_neg (by omega), byte_store8,
      if_pos rfl]
    rfl
  · intro a ha
    rw [itoaReverse_byte _ (Nat.le_refl _), if_neg (by omega), byte_store8,
      if_neg (by omega)]
    exact hout a (by omega)

theorem digitsOf_length_le {radix n k : Nat} (hr : 2 ≤ radix) (hk : 0 < k)
    (h : n < radix ^ k) : (digitsOf radix n).length ≤ k := by
  rw [digitsOf]
  split
  · exact hk
  · rw [List.length_reverse]
    exact (Nat.digits_length_le_iff hr n).mpr h

theorem digitsOf_lt {radix n : Nat} (hr : 2 ≤ radix) :
    ∀ d ∈ digitsOf radix n, d < radix := by
  intro d hd
  rw [digitsOf] at hd
  split at hd
  · rw [List.mem_singleton] at hd
    omega
  · exact Nat.digits_lt_base hr (List.mem_reverse.mp hd)

/-- The magnitude of an `int` has 31 binary digits at most, unless it is the
least one. -/
theorem magnitude_length_le {radix : Nat} {n : Int} (hr : 2 ≤ radix)
    (hn : -2 ^ 31 < n) (hn' : n < 2 ^ 31) :
    (digitsOf radix n.natAbs).length ≤ 31 := by
  refine digitsOf_length_le hr (by decide) ?_
  have hpow : 2 ^ 31 ≤ radix ^ 31 := Nat.pow_le_pow_left hr 31
  omega

theorem numeral_nonzero {radix : Nat} {n : Int} (hr : 2 ≤ radix)
    (hr' : radix ≤ 36) : 0 ∉ numeral radix n := by
  rw [numeral, List.mem_append]
  rintro (hmem | hmem)
  · split at hmem
    · exact absurd (List.mem_singleton.mp hmem) (by decide)
    · cases hmem
  · obtain ⟨d, hd, hzero⟩ := List.mem_map.mp hmem
    have hlt := digitsOf_lt hr d hd
    exact digitByte_ne_zero (by omega) hzero

theorem int32_neg {k : Nat} (h : k < 2 ^ 31) : int32 (- -(k : Int)) = k := by
  rw [int32, Int.neg_neg, Int.bmod_eq_of_le (by omega) (by omega)]

/-- `itoa` writes the numeral, with its NUL, and nothing else. -/
theorem itoa_spec {radix str : Nat} {n : Int} (hr : 2 ≤ radix)
    (hr' : radix ≤ 36) (hn : -2 ^ 31 < n) (hn' : n < 2 ^ 31)
    (hsign : 0 ≤ n ∨ radix = 10) (hstr : 0 < str) (m : ByteMem) :
    ∃ m', itoa m n str radix = some (m', str) ∧
      m'.Holds str (numeral radix n ++ [0]) ∧
      ByteMem.Outside
        (fun a => str ≤ a ∧ a ≤ str + (numeral radix n).length) m m' := by
  have hargs : ¬ (str = 0 ∨ (radix : Int) < 2 ∨ (radix : Int) > 36) := by omega
  have hten : ¬ ((radix : Int) ≠ 10 ∧ n < 0) := by omega
  have hlen := magnitude_length_le hr hn hn'
  rw [itoa, if_neg hargs, if_neg hten]
  rcases Int.lt_trichotomy n 0 with hneg | rfl | hpos
  · -- the sign, and the digits behind it
    obtain ⟨k, rfl⟩ : ∃ k : Nat, n = -(k : Int) := ⟨n.natAbs, by omega⟩
    have hk : k ≠ 0 := by omega
    have habs : (-(k : Int)).natAbs = k := by omega
    have hminus : (radix : Int) = 10 ∧ -(k : Int) < 0 := ⟨by omega, hneg⟩
    rw [habs] at hlen
    obtain ⟨m', p, hrun, hholds, hout⟩ := itoa_digits hr hr' hk
      (Nat.lt_of_le_of_lt hlen (by decide)) (m.store8 str 0x2D) (str + 1)
    rw [if_neg (Int.ne_of_lt hneg), if_pos hminus, int32_neg (by omega)]
    dsimp only
    rw [hrun, numeral, if_pos hneg, habs]
    refine ⟨itoaReverse (p - 1 - (str + 1)) (m'.store8 p 0) (str + 1) (p - 1),
      rfl, ?_, ?_⟩
    · rw [List.append_assoc]
      refine ByteMem.holds_append.mpr ⟨fun i hi => ?_, hholds⟩
      obtain rfl : i = 0 := by simpa using hi
      rw [hout (str + 0) (by omega), byte_store8, if_pos (Nat.add_zero str)]
      rfl
    · intro a ha
      rw [List.length_append, List.length_map, List.length_singleton] at ha
      rw [hout a (by omega), byte_store8, if_neg (by omega)]
  · rw [if_pos rfl]
    have hzero : numeral radix 0 = [0x30] := by
      rw [numeral, if_neg (Int.lt_irrefl 0), digitsOf, if_pos Int.natAbs_zero]
      decide +kernel
    rw [hzero]
    refine ⟨_, rfl, fun i hi => ?_, fun a ha => ?_⟩
    · match i, hi with
      | 0, _ =>
          rw [byte_store8, byte_store8, if_neg (by omega),
            if_pos (Nat.add_zero str)]
          rfl
      | 1, _ =>
          rw [byte_store8, if_pos rfl]
          rfl
    · rw [List.length_singleton] at ha
      rw [byte_store8, byte_store8, if_neg (by omega), if_neg (by omega)]
  · obtain ⟨k, rfl⟩ : ∃ k : Nat, n = k := ⟨n.natAbs, by omega⟩
    have hk : k ≠ 0 := by omega
    have hplus : ¬ ((radix : Int) = 10 ∧ (k : Int) < 0) := by omega
    rw [Int.natAbs_natCast] at hlen
    obtain ⟨m', p, hrun, hholds, hout⟩ := itoa_digits hr hr' hk
      (Nat.lt_of_le_of_lt hlen (by decide)) m str
    rw [if_neg (Int.ne_of_gt hpos), if_neg hplus]
    dsimp only
    rw [hrun, numeral, if_neg (Int.not_lt.mpr (Int.le_of_lt hpos)),
      Int.natAbs_natCast, List.nil_append]
    refine ⟨_, rfl, hholds, fun a ha => hout a ?_⟩
    rw [List.length_map] at ha
    omega

/-- The character of a digit. -/
def symbol (d : Nat) : UInt8 :=
  UInt8.ofNat (if d < 10 then 0x30 + d else 0x41 + (d - 10))

/-- A sign for a negative number, and digits without leading zeros whose value
is the magnitude. -/
def IsNumeral (radix : Nat) (n : Int) (s : List UInt8) : Prop :=
  ∃ ds : List Nat, s = (if n < 0 then [0x2D] else []) ++ ds.map symbol ∧
    (∀ d ∈ ds, d < radix) ∧ ds ≠ [] ∧ (ds.head? = some 0 → ds = [0]) ∧
    Nat.ofDigits radix ds.reverse = n.natAbs

theorem digitByte_eq_symbol {d : Nat} (h : d < 36) : digitByte d = symbol d := by
  have hall : ∀ i < 36, digitByte i = symbol i := by decide +kernel
  exact hall d h

theorem digitsOf_head {radix n : Nat} (h : (digitsOf radix n).head? = some 0) :
    digitsOf radix n = [0] := by
  rw [digitsOf] at h ⊢
  split at h
  · next h0 => rw [if_pos h0]
  · next h0 =>
      have hne : Nat.digits radix n ≠ [] := Nat.digits_ne_nil_iff_ne_zero.mpr h0
      rw [List.head?_reverse, List.getLast?_eq_some_getLast hne,
        Option.some_inj] at h
      exact absurd h (Nat.getLast_digit_ne_zero radix h0)

theorem digitsOf_value (radix n : Nat) :
    Nat.ofDigits radix (digitsOf radix n).reverse = n := by
  rw [digitsOf]
  split
  · next h0 => rw [h0]; rfl
  · rw [List.reverse_reverse, Nat.ofDigits_digits]

theorem isNumeral_numeral {radix : Nat} (hr : 2 ≤ radix) (hr' : radix ≤ 36)
    (n : Int) : IsNumeral radix n (numeral radix n) := by
  refine ⟨digitsOf radix n.natAbs, ?_, digitsOf_lt hr, ?_, digitsOf_head,
    digitsOf_value radix _⟩
  · rw [numeral]
    congr 1
    refine List.map_congr_left fun d hd => digitByte_eq_symbol ?_
    exact Nat.lt_of_lt_of_le (digitsOf_lt hr d hd) hr'
  · rw [digitsOf]
    split
    · nofun
    · next h0 =>
        exact mt List.reverse_eq_nil_iff.mp
          (Nat.digits_ne_nil_iff_ne_zero.mpr h0)

/-- `itoa` leaves a string that is the numeral, and has written at most 34
bytes. -/
def WritesNumeral (m : ByteMem) (n : Int) (str radix : Nat) : Prop :=
  ∃ m' s, itoa m n str radix = some (m', str) ∧ m'.CStr str s ∧
    IsNumeral radix n s ∧ s.length + 1 ≤ 34 ∧
    ByteMem.Outside (fun a => str ≤ a ∧ a < str + 34) m m'

/-- The least `int` stays negative, and its last digit is in front of the
table. -/
theorem itoa_least (m : ByteMem) {str : Nat} (hstr : 0 < str) :
    itoa m (-2 ^ 31) str 10 = none := by
  have hargs : ¬ (str = 0 ∨ (10 : Int) < 2 ∨ (10 : Int) > 36) := by omega
  rw [itoa, if_neg hargs]
  rfl

/-- Every `int` but the least one is written as its numeral. -/
theorem writesNumeral_iff (m : ByteMem) (n : Int) (str radix : Nat)
    (hn : -2 ^ 31 ≤ n) (hn' : n < 2 ^ 31) (hr : 2 ≤ radix) (hr' : radix ≤ 36)
    (hsign : 0 ≤ n ∨ radix = 10) (hstr : 0 < str)
    (hbuffer : str + 34 ≤ 2 ^ 32) :
    WritesNumeral m n str radix ↔ n ≠ -2 ^ 31 := by
  constructor
  · rintro ⟨m', s, hrun, -⟩ rfl
    obtain rfl : radix = 10 := hsign.resolve_left (by decide)
    rw [show ((10 : Nat) : Int) = 10 from rfl, itoa_least m hstr] at hrun
    cases hrun
  · intro hne
    have hlt : -2 ^ 31 < n := by omega
    obtain ⟨m', hrun, hholds, hout⟩ := itoa_spec hr hr' hlt hn' hsign hstr m
    have hlen : (numeral radix n).length ≤ 32 := by
      have hdigits := magnitude_length_le hr hlt hn'
      rw [numeral, List.length_append, List.length_map]
      split
      · rw [List.length_singleton]
        omega
      · rw [List.length_nil]
        omega
    exact ⟨m', numeral radix n, hrun,
      ⟨hstr, by omega, numeral_nonzero hr hr', hholds⟩,
      isNumeral_numeral hr hr' n, by omega, hout.mono fun a ha => by omega⟩

/-- `-255` in decimal, in a buffer at 4096. -/
theorem writesNumeral_decimal : WritesNumeral ⟨fun _ => 0⟩ (-255) 4096 10 :=
  (writesNumeral_iff _ _ _ _ (by decide) (by decide) (by decide) (by decide)
    (.inr rfl) (by decide) (by decide)).mpr (by decide)

theorem not_writesNumeral_least :
    ¬ WritesNumeral ⟨fun _ => 0⟩ (-2147483648) 4096 10 := by
  rintro ⟨m', s, hrun, -⟩
  have hnone : (itoa ⟨fun _ => 0⟩ (-2147483648) 4096 10).isNone = true := by
    decide +kernel
  rw [show ((10 : Nat) : Int) = 10 from rfl] at hrun
  rw [hrun] at hnone
  cases hnone

end LearningLinux.MiniCrt
