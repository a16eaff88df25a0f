import LearningLinux.FrontEnd.Scanning
import LearningLinux.FrontEnd.Storage

/-!
# Literals

Each loop of the scanner runs over a text as a fold, which stops at the first
character that its body does not take (`Iterates.run_text`). A run of digits
is read as the number it denotes modulo `2 ^ 32`, and so as that number only
below `2 ^ 31`.
-/

namespace LearningLinux.FrontEnd

/-! ## Text -/

/-- The bytes of a text in ASCII. -/
def bytes (cs : List Char) : List UInt8 := cs.map fun c => UInt8.ofNat c.toNat

def Ascii (c : Char) : Prop := c.toNat < 128

instance (c : Char) : Decidable (Ascii c) := Nat.decLt _ _

theorem ofNat_byte {c : Char} (h : Ascii c) :
    Char.ofNat (UInt8.ofNat c.toNat).toNat = c := by
  have hlt : c.toNat < 256 := Nat.lt_trans h (by decide)
  rw [UInt8.toNat_ofNat_of_lt' hlt, Char.ofNat_toNat]

theorem bytes_cons (c : Char) (cs : List Char) :
    bytes (c :: cs) = UInt8.ofNat c.toNat :: bytes cs := rfl

theorem bytes_append (cs ds : List Char) :
    bytes (cs ++ ds) = bytes cs ++ bytes ds := List.map_append

theorem readch_bytes {c : Char} (h : Ascii c) (cs : List Char)
    (rest : List UInt8) :
    readch (bytes (c :: cs) ++ rest) = (c, bytes cs ++ rest) := by
  rw [bytes_cons, List.cons_append, readch, ofNat_byte h]

/-! ## The loops over a text -/

section Loops

variable {σ : Type} {run : σ → Char → List UInt8 → σ × Char × List UInt8}
  {body : σ → Char → Option σ}

/-- The loop goes on as long as `body` takes the character. -/
def Iterates (run : σ → Char → List UInt8 → σ × Char × List UInt8)
    (body : σ → Char → Option σ) : Prop :=
  ∀ st p input, run st p input = match body st p with
    | none => (st, p, input)
    | some st' => run st' (readch input).1 (readch input).2

/-- A text that `body` takes, up to a character that it does not take. -/
theorem Iterates.run_text (h : Iterates run body) {rest : List UInt8}
    {cs : List Char} (hcs : ∀ c ∈ cs, Ascii c) {st st' : σ}
    (hfold : cs.foldlM body st = some st')
    (hstop : body st' (readch rest).1 = none) :
    run st (readch (bytes cs ++ rest)).1 (readch (bytes cs ++ rest)).2 =
      (st', readch rest) := by
  induction cs generalizing st with
  | nil =>
      cases hfold
      rw [bytes, List.map_nil, List.nil_append, h, hstop]
  | cons c cs ih =>
      rw [List.foldlM_cons] at hfold
      obtain ⟨st₁, hbody, hrest⟩ := Option.bind_eq_some_iff.mp hfold
      rw [readch_bytes (hcs c List.mem_cons_self), h]
      dsimp only
      rw [hbody]
      exact ih (fun d hd => hcs d (List.mem_cons_of_mem c hd)) hrest

theorem iterates_skipBlanks : Iterates skipBlanks blankBody := by
  intro line p input
  cases input with
  | nil =>
      rw [skipBlanks, blankBody]
      split
      · rfl
      · split <;> rfl
  | cons b rest =>
      rw [skipBlanks, blankBody]
      split
      · rfl
      · split <;> rfl

theorem iterates_scanInt : Iterates scanInt intBody := by
  intro n p input
  cases input with
  | nil =>
      rw [scanInt, intBody]
      split <;> rfl
  | cons b rest =>
      rw [scanInt, intBody]
      split <;> rfl

theorem iterates_scanWord : Iterates scanWord wordBody := by
  intro s p input
  cases input with
  | nil =>
      rw [scanWord, wordBody]
      split <;> rfl
  | cons b rest =>
      rw [scanWord, wordBody]
      split <;> rfl

end Loops

/-! ## Numbers -/

theorem isDigit_iff {c : Char} : isDigit c = true ↔
    48 ≤ c.toNat ∧ c.toNat ≤ 57 := by
  rw [isDigit, Bool.and_eq_true, decide_eq_true_iff, decide_eq_true_iff]
  exact Iff.rfl

theorem ascii_of_isDigit {c : Char} (h : isDigit c = true) : Ascii c :=
  Nat.lt_of_le_of_lt (isDigit_iff.mp h).2 (by decide)

/-- The loop reads the number that the digits denote. -/
theorem foldlM_intBody {ds : List Char} (hds : ∀ c ∈ ds, isDigit c = true)
    (n : Num) : ∃ n', ds.foldlM intBody n = some n' ∧
      n'.lit = Nat.ofDigitChars 10 ds n.lit := by
  induction ds generalizing n with
  | nil => exact ⟨n, rfl, (Nat.ofDigitChars_nil ..).symm⟩
  | cons c ds ih =>
      obtain ⟨hc, hrest⟩ := List.forall_mem_cons.mp hds
      obtain ⟨n', hfold, hlit⟩ := ih hrest (n.push (digit c))
      refine ⟨n', ?_, ?_⟩
      · rw [List.foldlM_cons, intBody, if_pos hc]
        exact hfold
      · rw [hlit, Nat.ofDigitChars_cons]
        rfl

theorem scan_number {l : Lexer} (h : isDigit l.skipped.peek = true) :
    l.scan = l.skipped.scanNumber := by
  have hne : ∀ c, isDigit c = false → l.skipped.peek ≠ c := by
    rintro c hc rfl
    rw [h] at hc
    cases hc
  rw [scan_eq, if_neg (hne _ rfl), if_neg (hne _ rfl), if_neg (hne _ rfl),
    if_neg (hne _ rfl), if_neg (hne _ rfl), if_neg (hne _ rfl), if_pos (.inl h)]

/-- A run of digits, with something else behind it that is no point. -/
theorem scan_digits {l : Lexer} {ds : List Char} {rest : List UInt8}
    (hne : ds ≠ []) (hds : ∀ c ∈ ds, isDigit c = true)
    (htext : (l.skipped.peek, l.skipped.input) = readch (bytes ds ++ rest))
    (hstop : isDigit (readch rest).1 = false) (hdot : (readch rest).1 ≠ '.') :
    ∃ n : Num, n.lit = Nat.ofDigitChars 10 ds 0 ∧ l.scan = (.num n,
      { l.skipped with
        peek := (readch rest).1
        input := (readch rest).2 }) := by
  obtain ⟨n, hfold, hlit⟩ := foldlM_intBody hds Num.zero
  have hascii : ∀ c ∈ ds, Ascii c := fun c hc => ascii_of_isDigit (hds c hc)
  have hrun := iterates_scanInt.run_text hascii hfold
    (if_neg (Bool.eq_false_iff.mp hstop))
  rw [← htext] at hrun
  have hpeek : isDigit l.skipped.peek = true := by
    obtain ⟨d, ds', rfl⟩ := List.exists_cons_of_ne_nil hne
    rw [readch_bytes (hascii d List.mem_cons_self)] at htext
    have hd : l.skipped.peek = d := congrArg Prod.fst htext
    rw [hd]
    exact hds d List.mem_cons_self
  have hpoint : l.skipped.peek ≠ '.' := by
    intro he
    rw [he] at hpeek
    cases hpeek
  refine ⟨n, hlit, ?_⟩
  rw [scan_number hpeek, Lexer.scanNumber, if_pos hpoint, hrun]
  exact if_pos hdot

theorem Num.value_eq_lit_iff (n : Num) : n.value = n.lit ↔ n.lit < 2 ^ 31 := by
  rw [n.value_eq]
  refine ⟨fun h => ?_, wrap_of_lt⟩
  have hlt := wrap_lt n.lit
  rw [h] at hlt
  exact_mod_cast hlt

/-- A run of digits is read as the number it denotes if and only if that is
below `2 ^ 31`. -/
theorem scan_literal_iff {l : Lexer} {ds : List Char} {rest : List UInt8}
    (hne : ds ≠ []) (hds : ∀ c ∈ ds, isDigit c = true)
    (htext : (l.skipped.peek, l.skipped.input) = readch (bytes ds ++ rest))
    (hstop : isDigit (readch rest).1 = false) (hdot : (readch rest).1 ≠ '.') :
    ∃ n : Num, l.scan.1 = .num n ∧
      (n.value = Nat.ofDigitChars 10 ds 0 ↔
        Nat.ofDigitChars 10 ds 0 < 2 ^ 31) := by
  obtain ⟨n, hlit, hscan⟩ := scan_digits hne hds htext hstop hdot
  refine ⟨n, congrArg Prod.fst hscan, ?_⟩
  rw [← hlit]
  exact n.value_eq_lit_iff

theorem scan_literal_array : ∃ n : Num,
    (Lexer.new (bytes " 2147483647;".toList)).scan.1 = .num n ∧
      (n.value = (2147483647 : Nat) ↔ 2147483647 < 2 ^ 31) := by
  have hdigits : Nat.ofDigitChars 10 "2147483647".toList 0 = 2147483647 := by
    decide +kernel
  let l := Lexer.new (bytes " 2147483647;".toList)
  have htext : (l.skipped.peek, l.skipped.input) =
      readch (bytes "2147483647".toList ++ bytes [';']) := by decide +kernel
  have hdigit : ∀ c ∈ "2147483647".toList, isDigit c = true :=
    List.all_eq_true.mp (by decide +kernel)
  have hscan := scan_literal_iff (by decide +kernel) hdigit htext
    (by decide +kernel) (by decide +kernel)
  rw [hdigits] at hscan
  exact hscan

/-- `2 ^ 32` is read as 0. -/
theorem scan_literal_wraps : ∃ n : Num,
    (Lexer.new (bytes "4294967296;".toList)).scan.1 = .num n ∧
      Nat.ofDigitChars 10 "4294967296".toList 0 = 4294967296 ∧
      n.value ≠ (4294967296 : Nat) := by
  refine ⟨⟨0, 4294967296, by decide +kernel⟩, ?_, ?_, by decide⟩
  · decide +kernel
  · decide +kernel

theorem isDigit_of_mem {n : Nat} {c : Char} (h : c ∈ Nat.toDigits 10 n) :
    isDigit c = true := by
  have hdigit := Nat.isDigit_of_mem_toDigits (by decide) (by decide) h
  have hbounds : '0'.val ≤ c.val ∧ c.val ≤ '9'.val := by
    simpa [Char.isDigit] using hdigit
  rw [isDigit, decide_eq_true hbounds.1, decide_eq_true hbounds.2]
  rfl

end LearningLinux.FrontEnd
