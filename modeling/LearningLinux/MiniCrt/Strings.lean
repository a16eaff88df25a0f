import LearningLinux.Lib.CString

/-!
# `strcmp` and `strlen`, as `string.c` computes them, and the mode of `fopen`

The loop of `strcmp` runs as long as both strings go on and their bytes are
the same, and only a difference of two bytes is ever written to `ret`. Where
one string ends before they differ, `ret` is still zero. So a string and its
extensions compare as equal, and `fopen`, which asks for `"w"` first and for
`"w+"` next, ends with the flags of `"w+"` for both.

A pointer that moves on by one byte meets the end of the address space after
`2 ^ 32` of them; no loop along a string gets that far.
-/

namespace LearningLinux.MiniCrt

open Lib

/-! ## `string.c` -/

/-- The loop of `strcmp`, with the value of `ret` after it. -/
def strcmpLoop (m : ByteMem) : Nat → Nat → Nat → Int → Option Int
  | 0, _, _, _ => none
  | fuel + 1, p1, p2, ret =>
      if m.byte p2 ≠ 0 ∧ m.byte p1 ≠ 0 then
        let ret : Int := (m.byte p1).toNat - (m.byte p2).toNat
        if ret = 0 then strcmpLoop m fuel (p1 + 1) (p2 + 1) ret else some ret
      else some ret

def strcmp (m : ByteMem) (src dst : Nat) : Option Int :=
  (strcmpLoop m (2 ^ 32) src dst 0).map fun ret =>
    if ret < 0 then -1 else if ret > 0 then 1 else ret

def strlenLoop (m : ByteMem) : Nat → Nat → Nat → Option Nat
  | 0, _, _ => none
  | fuel + 1, str, cnt =>
      if m.byte str = 0 then some cnt else strlenLoop m fuel (str + 1) (cnt + 1)

def strlen (m : ByteMem) (str : Nat) : Option Nat :=
  if str = 0 then some 0 else strlenLoop m (2 ^ 32) str 0

/-! ## `fopen` -/

def O_RDONLY : Nat := 0o0
def O_WRONLY : Nat := 0o1
def O_RDWR : Nat := 0o2
def O_CREAT : Nat := 0o100
def O_TRUNC : Nat := 0o1000

/-- Where the four modes that `fopen` knows are stored. -/
structure ModeTexts where
  w : Nat
  wPlus : Nat
  r : Nat
  rPlus : Nat

/-- The flags that `fopen` opens the file with. -/
def fopenFlags (m : ByteMem) (texts : ModeTexts) (mode : Nat) :
    Option Nat := do
  let flags := 0
  let c ← strcmp m mode texts.w
  let flags := if c = 0 then O_WRONLY ||| O_CREAT ||| O_TRUNC else flags
  let c ← strcmp m mode texts.wPlus
  let flags := if c = 0 then O_RDWR ||| O_CREAT ||| O_TRUNC else flags
  let c ← strcmp m mode texts.r
  let flags := if c = 0 then O_RDONLY else flags
  let c ← strcmp m mode texts.rPlus
  some (if c = 0 then O_RDONLY ||| O_CREAT else flags)

/-! ## What the loops compute -/

variable {m : ByteMem} {p q fuel : Nat} {s t : List UInt8}

theorem strlenLoop_spec : ∀ {s : List UInt8} {p fuel : Nat} (cnt : Nat),
    m.CStr p s → s.length < fuel →
    strlenLoop m fuel p cnt = some (cnt + s.length) := by
  intro s
  induction s with
  | nil =>
      intro p fuel cnt h hf
      obtain ⟨k, rfl⟩ : ∃ k, fuel = k + 1 := ⟨fuel - 1, by omega⟩
      rw [strlenLoop, if_pos h.byte_end]
      rfl
  | cons c s ih =>
      intro p fuel cnt h hf
      obtain ⟨k, rfl⟩ : ∃ k, fuel = k + 1 := ⟨fuel - 1, by omega⟩
      obtain ⟨-, hbyte, hne, hrest⟩ := ByteMem.cstr_cons.mp h
      rw [List.length_cons] at hf ⊢
      rw [strlenLoop, hbyte, if_neg hne, ih _ hrest (by omega), Nat.add_assoc,
        Nat.add_comm 1]

theorem strlen_spec (h : m.CStr p s) : strlen m p = some s.length := by
  have hpos : ¬ p = 0 := Nat.ne_of_gt h.pos
  have hfits := h.fits
  rw [strlen, if_neg hpos, strlenLoop_spec 0 h (by omega), Nat.zero_add]

/-- Where the strings first differ decides, and an end is no difference. -/
def compared : List UInt8 → List UInt8 → Int
  | x :: xs, y :: ys =>
      if x = y then compared xs ys else if x < y then -1 else 1
  | _, _ => 0

theorem strcmpLoop_spec : ∀ {s t : List UInt8} {p q fuel : Nat},
    m.CStr p s → m.CStr q t → s.length < fuel →
    (strcmpLoop m fuel p q 0).map (fun ret =>
      if ret < 0 then -1 else if ret > 0 then 1 else ret) =
        some (compared s t) := by
  intro s
  induction s with
  | nil =>
      intro t p q fuel hs _ hf
      obtain ⟨k, rfl⟩ : ∃ k, fuel = k + 1 := ⟨fuel - 1, by omega⟩
      rw [strcmpLoop, hs.byte_end, if_neg fun h => h.2 rfl]
      rfl
  | cons x s ih =>
      intro t p q fuel hs ht hf
      obtain ⟨k, rfl⟩ : ∃ k, fuel = k + 1 := ⟨fuel - 1, by omega⟩
      obtain ⟨-, hx, hx0, hs'⟩ := ByteMem.cstr_cons.mp hs
      cases t with
      | nil =>
          rw [strcmpLoop, ht.byte_end, if_neg fun h => h.1 rfl]
          rfl
      | cons y t =>
          obtain ⟨-, hy, hy0, ht'⟩ := ByteMem.cstr_cons.mp ht
          rw [List.length_cons] at hf
          rw [strcmpLoop, hx, hy, if_pos ⟨hy0, hx0⟩, compared]
          have heq : (x.toNat : Int) - y.toNat = 0 ↔ x = y := by
            rw [← UInt8.toNat_inj]
            omega
          by_cases hxy : x = y
          · dsimp only
            rw [if_pos hxy, if_pos (heq.mpr hxy), heq.mpr hxy]
            exact ih hs' ht' (by omega)
          · have hlt : (x.toNat : Int) - y.toNat < 0 ↔ x < y := by
              rw [UInt8.lt_iff_toNat_lt]
              omega
            have hgt : ¬ x < y → (x.toNat : Int) - y.toNat > 0 := by
              intro hle
              have hne := mt heq.mp hxy
              rw [← hlt] at hle
              omega
            dsimp only
            rw [if_neg hxy, if_neg (mt heq.mp hxy), Option.map_some]
            by_cases hless : x < y
            · rw [if_pos (hlt.mpr hless), if_pos hless]
            · rw [if_neg (mt hlt.mp hless), if_pos (hgt hless), if_neg hless]

theorem strcmp_spec (hs : m.CStr p s) (ht : m.CStr q t) :
    strcmp m p q = some (compared s t) := by
  have hfits := hs.fits
  exact strcmpLoop_spec hs ht (by omega)

/-! ## The lexicographic order -/

/-- How two strings of unsigned bytes compare. -/
def lexOrder (s t : List UInt8) : Int :=
  if s = t then 0 else if s < t then -1 else 1

def ProperPrefix (s t : List UInt8) : Prop := s <+: t ∧ s ≠ t

instance (s t : List UInt8) : Decidable (ProperPrefix s t) :=
  inferInstanceAs (Decidable (_ ∧ _))

theorem lexOrder_cons (x : UInt8) (s t : List UInt8) :
    lexOrder (x :: s) (x :: t) = lexOrder s t := by
  have hlt : x :: s < x :: t ↔ s < t := by
    rw [List.cons_lt_cons_iff]
    simp
  rw [lexOrder, lexOrder]
  simp only [List.cons.injEq, true_and, hlt]

theorem properPrefix_cons {x y : UInt8} :
    ProperPrefix (x :: s) (y :: t) ↔ x = y ∧ ProperPrefix s t := by
  rw [ProperPrefix, ProperPrefix, List.cons_prefix_cons, and_assoc]
  refine and_congr_right fun hxy => and_congr_right fun _ => ?_
  simp [hxy]

/-- The two agree unless one string is the beginning of the other. -/
theorem compared_eq_iff : ∀ {s t : List UInt8}, compared s t = lexOrder s t ↔
    ¬ ProperPrefix s t ∧ ¬ ProperPrefix t s := by
  intro s
  induction s with
  | nil =>
      intro t
      cases t with
      | nil => simp [compared, lexOrder, ProperPrefix]
      | cons y t => simp [compared, lexOrder, ProperPrefix]
  | cons x s ih =>
      intro t
      cases t with
      | nil => simp [compared, lexOrder, ProperPrefix]
      | cons y t =>
          rw [compared, properPrefix_cons, properPrefix_cons]
          by_cases hxy : x = y
          · subst hxy
            rw [if_pos rfl, lexOrder_cons, ih]
            simp
          · have hlt : x :: s < y :: t ↔ x < y := by
              rw [List.cons_lt_cons_iff]
              simp [hxy]
            have hne : ¬ x :: s = y :: t := fun h => hxy (List.cons.inj h).1
            rw [if_neg hxy, lexOrder, if_neg hne]
            simp only [hlt, hxy, Ne.symm hxy, false_and, not_false_eq_true,
              and_self]

/-- `strcmp` compares in lexicographic order if and only if neither string is
a proper prefix of the other. -/
theorem strcmp_lex_iff (m : ByteMem) (a b : Nat) (s t : List UInt8)
    (hs : m.CStr a s) (ht : m.CStr b t) :
    strcmp m a b = some (lexOrder s t) ↔
      ¬ ProperPrefix s t ∧ ¬ ProperPrefix t s := by
  rw [strcmp_spec hs ht, Option.some_inj]
  exact compared_eq_iff

/-! ## The modes of `fopen` -/

/-- `"w"`, `"w+"`, `"r"` and `"r+"` are stored. -/
structure ModeTexts.At (m : ByteMem) (texts : ModeTexts) : Prop where
  w : m.CStr texts.w [0x77]
  wPlus : m.CStr texts.wPlus [0x77, 0x2B]
  r : m.CStr texts.r [0x72]
  rPlus : m.CStr texts.rPlus [0x72, 0x2B]

/-- The flags that a mode gets, by what `strcmp` makes of it. -/
theorem fopenFlags_eq {texts : ModeTexts} (h : texts.At m)
    (hs : m.CStr p s) : fopenFlags m texts p = some (
      if compared s [0x72, 0x2B] = 0 then O_RDONLY ||| O_CREAT
      else if compared s [0x72] = 0 then O_RDONLY
      else if compared s [0x77, 0x2B] = 0 then O_RDWR ||| O_CREAT ||| O_TRUNC
      else if compared s [0x77] = 0 then O_WRONLY ||| O_CREAT ||| O_TRUNC
      else 0) := by
  rw [fopenFlags, strcmp_spec hs h.w, strcmp_spec hs h.wPlus,
    strcmp_spec hs h.r, strcmp_spec hs h.rPlus]
  rfl

/-- `"w"` opens a file as `"w+"` does, and `"r"` as `"r+"` does. -/
theorem fopenFlags_same {texts : ModeTexts} (h : texts.At m) :
    fopenFlags m texts texts.w = fopenFlags m texts texts.wPlus ∧
      fopenFlags m texts texts.r = fopenFlags m texts texts.rPlus := by
  constructor
  · rw [fopenFlags_eq h h.w, fopenFlags_eq h h.wPlus]
    decide
  · rw [fopenFlags_eq h h.r, fopenFlags_eq h h.rPlus]
    decide

/-- The four modes, from the address 1 on. -/
def exampleTexts : ByteMem :=
  ⟨fun a => [0, 0x77, 0, 0x77, 0x2B, 0, 0x72, 0, 0x72, 0x2B, 0].getD a 0⟩

instance (m : ByteMem) (a : Nat) (bytes : List UInt8) :
    Decidable (m.Holds a bytes) :=
  inferInstanceAs (Decidable (∀ i (_ : i < bytes.length), _))

instance (m : ByteMem) (p : Nat) (s : List UInt8) : Decidable (m.CStr p s) :=
  decidable_of_iff (0 < p ∧ p + s.length < 2 ^ 32 ∧ 0 ∉ s ∧
      m.Holds p (s ++ [0]))
    ⟨fun h => ⟨h.1, h.2.1, h.2.2.1, h.2.2.2⟩,
      fun h => ⟨h.pos, h.fits, h.nonzero, h.holds⟩⟩

/-- `"r"` precedes `"w+"`. -/
theorem strcmp_lex_modes : strcmp exampleTexts 6 3 = some (-1) :=
  (strcmp_lex_iff exampleTexts 6 3 [0x72] [0x77, 0x2B] (by decide)
    (by decide)).mpr (by decide)

/-- `"w"` and `"w+"` compare as equal, and `fopen` does not tell them
apart. -/
theorem not_strcmp_lex_prefix : exampleTexts.CStr 1 [0x77] ∧
    exampleTexts.CStr 3 [0x77, 0x2B] ∧ strcmp exampleTexts 1 3 = some 0 ∧
    strcmp exampleTexts 1 3 ≠ some (lexOrder [0x77] [0x77, 0x2B]) ∧
    fopenFlags exampleTexts ⟨1, 3, 6, 8⟩ 1 =
      fopenFlags exampleTexts ⟨1, 3, 6, 8⟩ 3 := by
  decide +kernel

end LearningLinux.MiniCrt
