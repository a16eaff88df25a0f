import Mathlib.Data.List.TakeWhile
import LearningLinux.Lib.StateExcept

/-!
# Programs that read standard input one character ahead

The next character is in `token`, where `getchar` put it; what `ungetc` puts
back is in front of the rest again. `peek` is the token such a program has in
front of a text. The end of the input is the value of `EOF` as a `char`, which
no text of interest contains.

Numbers are left to `scanf`, which skips blanks, takes a sign if there is one
and then as many digits as there are. `Numeral` says what a number looks like.
Where there is a sign only, `scanf` has taken it and assigns nothing.
-/

namespace LearningLinux.Lib

structure Lookahead where
  token : UInt8
  stdin : List UInt8
deriving DecidableEq, Repr

def getchar : List UInt8 → Lookahead
  | [] => ⟨0xFF, []⟩
  | c :: stdin => ⟨c, stdin⟩

/-- The token in front of a text. -/
def peek (text : List UInt8) : UInt8 := (getchar text).token

/-- Why a program does not return: it has called `exit`, its behaviour is
undefined, or it has not come to its end yet. -/
inductive Stop (μ : Type) where
  | exit (message : μ)
  | undefined
  | outOfFuel
deriving DecidableEq, Repr

abbrev Reader (μ : Type) := StateT Lookahead (Except (Stop μ))

variable {μ α : Type}

def stop (e : Stop μ) : Reader μ α := fun _ => .error e

/-- The next character is `expected` and is passed over. -/
def expect (report : UInt8 → UInt8 → μ) (expected : UInt8) : Reader μ Unit :=
  fun s =>
    if s.token = expected then .ok ((), getchar s.stdin)
    else .error (.exit (report expected s.token))

/-- With enough fuel, this is the result. -/
def Settles (f : Nat → α) (a : α) : Prop := ∃ n, ∀ fuel ≥ n, f fuel = a

theorem Settles.unique {f : Nat → α} {a b : α} (ha : Settles f a)
    (hb : Settles f b) : a = b := by
  obtain ⟨n, hn⟩ := ha
  obtain ⟨m, hm⟩ := hb
  exact (hn (max n m) (Nat.le_max_left n m)).symm.trans
    (hm (max n m) (Nat.le_max_right n m))

theorem Settles.map {β : Type} {f : Nat → α} {a : α} (h : Settles f a)
    (g : α → β) : Settles (fun fuel => g (f fuel)) (g a) := by
  obtain ⟨n, hn⟩ := h
  exact ⟨n, fun fuel hfuel => congrArg g (hn fuel hfuel)⟩

theorem peek_cons (c : UInt8) (text : List UInt8) : peek (c :: text) = c := rfl

theorem expect_run {report : UInt8 → UInt8 → μ} (c : UInt8)
    (text : List UInt8) :
    expect report c (getchar (c :: text)) = .ok ((), getchar text) :=
  if_pos rfl

theorem expect_error {report : UInt8 → UInt8 → μ} {c : UInt8}
    {text : List UInt8} (h : peek text ≠ c) :
    expect report c (getchar text) = .error (.exit (report c (peek text))) :=
  if_neg h

/-! ## Numbers -/

def isdigit (c : UInt8) : Bool := '0'.toUInt8 ≤ c && c ≤ '9'.toUInt8

def isspace (c : UInt8) : Bool := c = ' '.toUInt8 || 9 ≤ c && c ≤ 13

def isSign (c : UInt8) : Bool := c = '+'.toUInt8 || c = '-'.toUInt8

def decimal (digits : List UInt8) : Nat :=
  digits.foldl (fun n d => 10 * n + (d.toNat - 48)) 0

/-- A sign, if there is one, and whether it is the minus sign. -/
def takeSign : List UInt8 → Bool × List UInt8
  | [] => (false, [])
  | c :: text =>
      if c = '-'.toUInt8 then (true, text)
      else if c = '+'.toUInt8 then (false, text)
      else (false, c :: text)

/-- What `scanf` finds, and the text behind it. -/
structure Scanned where
  negative : Bool
  digits : List UInt8
  rest : List UInt8

def scanDecimal (text : List UInt8) : Scanned :=
  let signed := takeSign (text.dropWhile isspace)
  ⟨signed.1, signed.2.takeWhile isdigit, signed.2.dropWhile isdigit⟩

def Scanned.value (s : Scanned) : Int :=
  if s.negative then -decimal s.digits else decimal s.digits

/-- At least one digit, behind at most one sign. -/
inductive Numeral : List UInt8 → Int → Prop where
  | plain {ds : List UInt8} : ds ≠ [] → (∀ d ∈ ds, isdigit d = true) →
      Numeral ds (decimal ds)
  | plus {ds : List UInt8} : ds ≠ [] → (∀ d ∈ ds, isdigit d = true) →
      Numeral ('+'.toUInt8 :: ds) (decimal ds)
  | minus {ds : List UInt8} : ds ≠ [] → (∀ d ∈ ds, isdigit d = true) →
      Numeral ('-'.toUInt8 :: ds) (-decimal ds)

variable {c : UInt8} {ds text rest : List UInt8} {v : Int}

theorem isdigit_bounds : isdigit c = true ↔ 48 ≤ c.toNat ∧ c.toNat ≤ 57 := by
  rw [isdigit, Bool.and_eq_true, decide_eq_true_iff, decide_eq_true_iff]
  exact Iff.rfl

theorem isdigit_plain (h : isdigit c = true) :
    c ≠ '+'.toUInt8 ∧ c ≠ '-'.toUInt8 ∧ isspace c = false := by
  obtain ⟨hlo, hhi⟩ := isdigit_bounds.mp h
  refine ⟨?_, ?_, ?_⟩
  · intro heq
    subst heq
    exact absurd hlo (by decide)
  · intro heq
    subst heq
    exact absurd hlo (by decide)
  · have hblank : c ≠ ' '.toUInt8 := by
      intro heq
      subst heq
      exact absurd hlo (by decide)
    have hhigh : ¬ c ≤ 13 := by
      intro hle
      have hle' : c.toNat ≤ 13 := hle
      omega
    simp [isspace, hblank, hhigh]

theorem isdigit_peek_dropWhile (text : List UInt8) :
    isdigit (peek (text.dropWhile isdigit)) = false := by
  induction text with
  | nil => decide
  | cons c text ih =>
      by_cases hc : isdigit c = true
      · rw [List.dropWhile_cons_of_pos hc]
        exact ih
      · rw [List.dropWhile_cons_of_neg hc]
        exact Bool.eq_false_iff.mpr hc

theorem takeWhile_of_peek (h : isdigit (peek rest) = false) :
    rest.takeWhile isdigit = [] ∧ rest.dropWhile isdigit = rest := by
  cases rest with
  | nil => exact ⟨rfl, rfl⟩
  | cons c rest =>
      have hc : ¬ isdigit c = true := Bool.eq_false_iff.mp h
      exact ⟨List.takeWhile_cons_of_neg hc, List.dropWhile_cons_of_neg hc⟩

theorem digits_span (hds : ∀ d ∈ ds, isdigit d = true)
    (h : isdigit (peek rest) = false) :
    (ds ++ rest).takeWhile isdigit = ds ∧
      (ds ++ rest).dropWhile isdigit = rest := by
  obtain ⟨htake, hdrop⟩ := takeWhile_of_peek h
  rw [List.takeWhile_append_of_pos hds, List.dropWhile_append_of_pos hds, htake,
    hdrop, List.append_nil]
  exact ⟨rfl, rfl⟩

theorem isSign_iff : isSign c = true ↔ c = '+'.toUInt8 ∨ c = '-'.toUInt8 := by
  simp [isSign]

theorem scan_signed (hc : isSign c = true) (text : List UInt8) :
    scanDecimal (c :: text) =
      ⟨c = '-'.toUInt8, text.takeWhile isdigit, text.dropWhile isdigit⟩ := by
  rcases isSign_iff.mp hc with rfl | rfl <;> rfl

theorem scan_unsigned (hc : isdigit c = true) (text : List UInt8) :
    scanDecimal (c :: text) = ⟨false, (c :: text).takeWhile isdigit,
      (c :: text).dropWhile isdigit⟩ := by
  obtain ⟨hplus, hminus, hspace⟩ := isdigit_plain hc
  rw [scanDecimal, List.dropWhile_cons_of_neg (by simp [hspace]), takeSign,
    if_neg hminus, if_neg hplus]

/-- A number is read as a whole. -/
theorem scan_numeral (hv : Numeral text v) (h : isdigit (peek rest) = false) :
    (scanDecimal (text ++ rest)).digits ≠ [] ∧
      (scanDecimal (text ++ rest)).value = v ∧
      (scanDecimal (text ++ rest)).rest = rest := by
  cases hv with
  | plain hne hds =>
      obtain ⟨c, ds, rfl⟩ := List.exists_cons_of_ne_nil hne
      obtain ⟨htake, hdrop⟩ := digits_span hds h
      rw [List.cons_append, scan_unsigned (hds c List.mem_cons_self),
        ← List.cons_append, htake, hdrop]
      exact ⟨hne, rfl, rfl⟩
  | plus hne hds =>
      obtain ⟨htake, hdrop⟩ := digits_span hds h
      rw [List.cons_append, scan_signed rfl, htake, hdrop]
      exact ⟨hne, rfl, rfl⟩
  | minus hne hds =>
      obtain ⟨htake, hdrop⟩ := digits_span hds h
      rw [List.cons_append, scan_signed rfl, htake, hdrop]
      exact ⟨hne, rfl, rfl⟩

/-- Of a sign without digits only the sign is taken. -/
theorem scan_bare (hc : isSign c = true) (h : isdigit (peek rest) = false) :
    (scanDecimal (c :: rest)).digits = [] ∧
      (scanDecimal (c :: rest)).rest = rest := by
  rw [scan_signed hc]
  exact takeWhile_of_peek h

/-- A text that begins with digits begins with a number. -/
theorem exists_digits (h : isdigit (peek text) = true) :
    ∃ ds rest, text = ds ++ rest ∧ ds ≠ [] ∧
      (∀ d ∈ ds, isdigit d = true) ∧ isdigit (peek rest) = false := by
  refine ⟨text.takeWhile isdigit, text.dropWhile isdigit,
    List.takeWhile_append_dropWhile.symm, ?_,
    fun d hd => List.mem_takeWhile_imp hd, isdigit_peek_dropWhile text⟩
  cases text with
  | nil => exact absurd h (by decide)
  | cons c text =>
      have hc : isdigit c = true := h
      rw [List.takeWhile_cons_of_pos hc]
      exact List.cons_ne_nil _ _

/-- A digit or a sign is the beginning of a number, or a sign without
digits. -/
theorem numeral_or_bare (hc : (isdigit c || isSign c) = true) :
    (∃ u v rest, c :: text = u ++ rest ∧ Numeral u v ∧
      isdigit (peek rest) = false) ∨
      isSign c = true ∧ isdigit (peek text) = false := by
  by_cases hdigit : isdigit c = true
  · obtain ⟨ds, rest, heq, hne, hds, hrest⟩ :=
      exists_digits (show isdigit (peek (c :: text)) = true from hdigit)
    exact Or.inl ⟨ds, _, rest, heq, .plain hne hds, hrest⟩
  · have hsign : isSign c = true := by
      simpa [hdigit] using hc
    by_cases hnext : isdigit (peek text) = true
    · obtain ⟨ds, rest, rfl, hne, hds, hrest⟩ := exists_digits hnext
      rcases isSign_iff.mp hsign with rfl | rfl
      · exact Or.inl ⟨_, _, rest, rfl, .plus hne hds, hrest⟩
      · exact Or.inl ⟨_, _, rest, rfl, .minus hne hds, hrest⟩
    · exact Or.inr ⟨hsign, Bool.eq_false_iff.mpr hnext⟩

theorem Numeral.ne_nil (h : Numeral text v) : text ≠ [] := by
  cases h with
  | plain hne _ => exact hne
  | plus _ _ => exact List.cons_ne_nil _ _
  | minus _ _ => exact List.cons_ne_nil _ _

theorem Numeral.head (h : Numeral text v) :
    (isdigit (peek (text ++ rest)) || isSign (peek (text ++ rest))) = true := by
  cases h with
  | plain hne hds =>
      obtain ⟨c, ds, rfl⟩ := List.exists_cons_of_ne_nil hne
      rw [List.cons_append, peek_cons, hds c List.mem_cons_self]
      rfl
  | plus _ _ => rfl
  | minus _ _ => rfl

theorem Numeral.last (h : Numeral text v) :
    ∃ u d, text = u ++ [d] ∧ isdigit d = true := by
  have hlast {ds : List UInt8} (hne : ds ≠ [])
      (hds : ∀ d ∈ ds, isdigit d = true) :
      ∃ u d, ds = u ++ [d] ∧ isdigit d = true :=
    ⟨_, _, (List.dropLast_concat_getLast hne).symm,
      hds _ (List.getLast_mem hne)⟩
  cases h with
  | plain hne hds => exact hlast hne hds
  | plus hne hds =>
      obtain ⟨u, d, rfl, hd⟩ := hlast hne hds
      exact ⟨_ :: u, d, rfl, hd⟩
  | minus hne hds =>
      obtain ⟨u, d, rfl, hd⟩ := hlast hne hds
      exact ⟨_ :: u, d, rfl, hd⟩

end LearningLinux.Lib
