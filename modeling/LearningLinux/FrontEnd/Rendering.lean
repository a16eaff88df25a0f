import LearningLinux.FrontEnd.Literals

/-!
# Written tokens

The scanner is one character ahead: after a word or a number `peek` is the
character behind it, after an operator of two characters, or a character that
stands for itself, it is a blank that nobody wrote. Both leave the text that
is still to be read where it was (`Lexer.At`), and so a token that is written
out, with something behind it that cannot belong to it, is read back.
-/

namespace LearningLinux.FrontEnd

/-! ## Tokens as they are written -/

inductive Blank where
  | space
  | tab
  | newline
  deriving DecidableEq, Repr

def Blank.char : Blank → Char
  | .space => ' '
  | .tab => '\t'
  | .newline => '\n'

/-- The operators of two characters. -/
inductive Pair where
  | and
  | or
  | eq
  | ne
  | le
  | ge
  deriving DecidableEq, Repr

def Pair.first : Pair → Char
  | .and => '&'
  | .or => '|'
  | .eq => '='
  | .ne => '!'
  | .le => '<'
  | .ge => '>'

def Pair.second : Pair → Char
  | .and => '&'
  | .or => '|'
  | _ => '='

def Pair.token : Pair → Token
  | .and => .and
  | .or => .or
  | .eq => .eq
  | .ne => .ne
  | .le => .le
  | .ge => .ge

/-- A reserved word or an identifier. -/
def isWord : List Char → Bool
  | [] => false
  | c :: cs => (isLetter c || c == '_') && (c :: cs).all fun d =>
      decide (Ascii d) && (isLetter d || isDigit d || d == '_')

/-- A character that stands for itself. -/
def isSingle (c : Char) : Bool :=
  decide (Ascii c) && !(c == ' ' || c == '\t' || c == '\n') &&
    !(isLetter c || isDigit c || c == '_' || c == '.')

inductive Spelled where
  | word (s : List Char) (h : isWord s = true)
  | num (n : Nat) (h : n < 2 ^ 31)
  | pair (p : Pair)
  | chr (c : Char) (h : isSingle c = true)

def Spelled.text : Spelled → List Char
  | .word s _ => s
  | .num n _ => Nat.toDigits 10 n
  | .pair p => [p.first, p.second]
  | .chr c _ => [c]

/-- The token, for a table that says what the words are. -/
def Spelled.tokenBy (word : List Char → Token) : Spelled → Token
  | .word s _ => word s
  | .num n h => .num ⟨n, n, (wrap_of_lt h).symm⟩
  | .pair p => p.token
  | .chr c _ => .chr c

/-- The reserved words. -/
def reserved : List (List Char × Token) := (Lexer.new []).words

/-- The token of a word, if `ref` numbers the objects of the identifiers. -/
def wordToken (ref : List Char → Nat) (s : List Char) : Token :=
  (reserved.lookup s).getD (.id ⟨s, ref s⟩)

/-- Tokens, each behind its blanks. -/
def render (pieces : List (List Blank × Spelled)) (last : List Blank) :
    List Char :=
  pieces.flatMap (fun p => p.1.map Blank.char ++ p.2.text) ++
    last.map Blank.char

/-- `scan`, so many times. -/
def Lexer.scans : Nat → Lexer → List Token × Lexer
  | 0, l => ([], l)
  | n + 1, l =>
      let (t, l') := l.scan
      let (ts, l'') := l'.scans n
      (t :: ts, l'')

/-! ## One token -/

/-- What is still to be read is `text`. -/
def Lexer.At (l : Lexer) (text : List UInt8) : Prop :=
  (l.peek = ' ' ∧ l.input = text) ∨ (l.peek, l.input) = readch text

def isBlank (c : Char) : Bool := c == ' ' || c == '\t' || c == '\n'

theorem isBlank_iff {c : Char} :
    isBlank c = true ↔ c = ' ' ∨ c = '\t' ∨ c = '\n' := by
  simp [isBlank, or_assoc]

theorem blankBody_none {line : Int32} {c : Char} (h : isBlank c = false) :
    blankBody line c = none := by
  have hne := (Bool.eq_false_iff.mp h) ∘ isBlank_iff.mpr
  rw [blankBody, if_neg fun hb => hne (or_assoc.mp (.inl hb)),
    if_neg fun hb => hne (.inr (.inr hb))]

theorem foldlM_blankBody (gap : List Blank) (line : Int32) :
    (gap.map Blank.char).foldlM blankBody line =
      some (line + Int32.ofNat (gap.count .newline)) := by
  induction gap generalizing line with
  | nil => exact congrArg some (Int32.add_zero line).symm
  | cons b gap ih =>
      cases b with
      | space =>
          rw [List.count_cons_of_ne (by decide), ← ih line]
          rfl
      | tab =>
          rw [List.count_cons_of_ne (by decide), ← ih line]
          rfl
      | newline =>
          rw [List.count_cons_self, Nat.add_comm _ 1, Int32.ofNat_add,
            ← Int32.add_assoc]
          exact ih (line + 1)

/-- The blanks in front of a token. -/
theorem skipped_at {l : Lexer} {gap : List Blank} {rest : List UInt8}
    (hat : l.At (bytes (gap.map Blank.char) ++ rest))
    (hstop : isBlank (readch rest).1 = false) :
    l.skipped = { l with
      line := l.line + Int32.ofNat (gap.count .newline)
      peek := (readch rest).1
      input := (readch rest).2 } := by
  have hascii : ∀ c ∈ gap.map Blank.char, Ascii c := by
    intro c hc
    obtain ⟨b, -, rfl⟩ := List.mem_map.mp hc
    cases b <;> decide
  have hrun := iterates_skipBlanks.run_text hascii
    (foldlM_blankBody gap l.line) (blankBody_none hstop)
  have hskip : skipBlanks l.line l.peek l.input =
      (l.line + Int32.ofNat (gap.count .newline), readch rest) := by
    rcases hat with ⟨hpeek, hinput⟩ | hread
    · rw [hpeek, hinput, iterates_skipBlanks]
      exact hrun
    · rw [← hread] at hrun
      exact hrun
  rw [Lexer.skipped, hskip]

/-- A character that ends every word and number. -/
def Apart (c : Char) : Prop := isBlank c = true ∨ c = eofChar

theorem Apart.not_part {c : Char} (h : Apart c) :
    isDigit c = false ∧ isLetter c = false ∧ c ≠ '_' ∧ c ≠ '.' ∧
      ∀ p : Pair, c ≠ p.second := by
  rw [Apart, isBlank_iff] at h
  rcases h with (rfl | rfl | rfl) | rfl <;>
    exact ⟨by decide, by decide, by decide, by decide,
      fun p => by cases p <;> decide⟩

theorem isLetter_not {c : Char} (h : isLetter c = true ∨ c = '_') :
    isDigit c = false ∧ c ≠ '.' ∧ ∀ p : Pair, c ≠ p.first := by
  refine ⟨?_, ?_, fun p => ?_⟩
  · rw [← Bool.not_eq_true, isDigit_iff]
    rcases h with h | rfl
    · simp only [isLetter, Bool.or_eq_true, Bool.and_eq_true,
        decide_eq_true_iff, beq_iff_eq] at h
      omega
    · decide
  · rintro rfl
    exact absurd h (by decide)
  · rintro rfl
    exact absurd h (by cases p <;> decide)

section Tokens

variable {l : Lexer} {rest : List UInt8}

theorem scan_pair {p : Pair} (h : l.skipped.peek = p.first) :
    l.scan = l.skipped.scanPair p.second p.token := by
  rw [scan_eq, h]
  cases p <;> rfl

theorem scanPair_found {second : Char} {two : Token}
    (h : readch l.input = (second, rest)) :
    l.scanPair second two = (two, { l with
      peek := ' '
      input := rest }) := by
  rw [Lexer.scanPair, Lexer.readchIs, h]
  simp only [ne_eq, not_true_eq_false, if_false, if_true]

theorem scanPair_alone {second : Char} {two : Token}
    (h : (readch l.input).1 ≠ second) :
    l.scanPair second two = (.chr l.peek, { l with
      peek := (readch l.input).1
      input := (readch l.input).2 }) := by
  rw [Lexer.scanPair, Lexer.readchIs]
  simp only [ne_eq, h, not_false_eq_true, if_true, Bool.false_eq_true, if_false]

/-- What starts no operator of two characters. -/
theorem scan_no_pair (h : ∀ p : Pair, l.skipped.peek ≠ p.first) : l.scan =
    if isDigit l.skipped.peek ∨ l.skipped.peek = '.' then
      l.skipped.scanNumber
    else if isLetter l.skipped.peek ∨ l.skipped.peek = '_' then
      l.skipped.scanName
    else (.chr l.skipped.peek, { l.skipped with peek := ' ' }) :=
  calc l.scan
    _ = _ := scan_eq l
    _ = _ := if_neg (h .and)
    _ = _ := if_neg (h .or)
    _ = _ := if_neg (h .eq)
    _ = _ := if_neg (h .ne)
    _ = _ := if_neg (h .le)
    _ = _ := if_neg (h .ge)

theorem scan_name (h : isLetter l.skipped.peek = true ∨ l.skipped.peek = '_') :
    l.scan = l.skipped.scanName := by
  obtain ⟨hdigit, hdot, hpair⟩ := isLetter_not h
  have hnumber : ¬ (isDigit l.skipped.peek = true ∨ l.skipped.peek = '.') := by
    rw [hdigit]
    exact not_or.mpr ⟨nofun, hdot⟩
  rw [scan_no_pair hpair, if_neg hnumber, if_pos h]

/-- A character that stands for itself, whatever comes behind it. -/
theorem scan_other (hsingle : isSingle l.skipped.peek = true)
    (hpair : ∀ p : Pair, l.skipped.peek ≠ p.first) :
    l.scan = (.chr l.skipped.peek, { l.skipped with peek := ' ' }) := by
  have hpart : isLetter l.skipped.peek = false ∧
      isDigit l.skipped.peek = false ∧ l.skipped.peek ≠ '_' ∧
      l.skipped.peek ≠ '.' := by
    have hnot := (Bool.and_eq_true_iff.mp hsingle).2
    simpa [and_assoc] using hnot
  obtain ⟨hletter, hdigit, hbar, hdot⟩ := hpart
  have hnumber : ¬ (isDigit l.skipped.peek = true ∨ l.skipped.peek = '.') := by
    rw [hdigit]
    exact not_or.mpr ⟨nofun, hdot⟩
  have hname : ¬ (isLetter l.skipped.peek = true ∨ l.skipped.peek = '_') := by
    rw [hletter]
    exact not_or.mpr ⟨nofun, hbar⟩
  rw [scan_no_pair hpair, if_neg hnumber, if_neg hname]

theorem foldlM_wordBody {cs : List Char}
    (h : ∀ c ∈ cs, (isLetter c || isDigit c || c == '_') = true)
    (s : List Char) : cs.foldlM wordBody s = some (s ++ cs) := by
  induction cs generalizing s with
  | nil =>
      rw [List.append_nil]
      rfl
  | cons c cs ih =>
      obtain ⟨hc, hrest⟩ := List.forall_mem_cons.mp h
      rw [List.foldlM_cons, wordBody, if_pos hc]
      show List.foldlM wordBody (s ++ [c]) cs = _
      rw [ih hrest, List.append_assoc, List.singleton_append]

theorem scanWord_text {s : List Char} (hs : isWord s = true)
    (hrest : Apart (readch rest).1) :
    scanWord [] (readch (bytes s ++ rest)).1 (readch (bytes s ++ rest)).2 =
      (s, readch rest) := by
  have hall : ∀ c ∈ s, Ascii c ∧
      (isLetter c || isDigit c || c == '_') = true := by
    intro c hc
    match s, hs, hc with
    | d :: ds, hs, hc =>
        have hmem := List.all_eq_true.mp (Bool.and_eq_true_iff.mp hs).2 c hc
        exact ⟨of_decide_eq_true (Bool.and_eq_true_iff.mp hmem).1,
          (Bool.and_eq_true_iff.mp hmem).2⟩
  obtain ⟨hdigit, hletter, hbar, -, -⟩ := hrest.not_part
  have hfold := foldlM_wordBody (fun c hc => (hall c hc).2) []
  rw [List.nil_append] at hfold
  refine iterates_scanWord.run_text (fun c hc => (hall c hc).1) hfold ?_
  rw [wordBody, hdigit, hletter]
  exact if_neg (by simpa using hbar)

end Tokens

/-! ## The table of words -/

section Words

variable {words words' : List (List Char × Token)} {s s' : List Char}
  {t : Token}

/-- The table has the reserved words, and identifiers else. -/
structure Interns (words : List (List Char × Token)) : Prop where
  keeps : ∀ {s t}, reserved.lookup s = some t → words.lookup s = some t
  other : ∀ {s t}, words.lookup s = some t →
    reserved.lookup s = some t ∨ ∃ i, t = .id ⟨s, i⟩

theorem interns_reserved : Interns reserved := ⟨id, .inl⟩

theorem lookup_extend (h : words <+: words') (ht : words.lookup s = some t) :
    words'.lookup s = some t := by
  obtain ⟨new, rfl⟩ := h
  rw [List.lookup_append, ht]
  rfl

theorem lookup_push_self {w : Token} (h : words.lookup s = none) :
    (words ++ [(s, w)]).lookup s = some w := by
  rw [List.lookup_append, h, List.lookup_cons_self]
  rfl

theorem Interns.push (h : Interns words) (hnew : words.lookup s = none)
    (i : Nat) : Interns (words ++ [(s, Token.id ⟨s, i⟩)]) where
  keeps ht := lookup_extend (List.prefix_append _ _) (h.keeps ht)
  other := by
    intro k t ht
    rw [List.lookup_append] at ht
    cases hk : words.lookup k with
    | some t' =>
        rw [hk] at ht
        cases ht
        exact h.other hk
    | none =>
        rw [hk, Option.none_or] at ht
        obtain ⟨rfl, rfl⟩ : k = s ∧ t = .id ⟨s, i⟩ := by
          simpa using lookup_some ht
        exact .inr ⟨i, rfl⟩

/-- The number of the object that is in the table for `s`. -/
def refIn (words : List (List Char × Token)) (s : List Char) : Nat :=
  match words.lookup s with
  | some (.id w) => w.ref
  | _ => 0

/-- What the table has for a word. -/
theorem Interns.wordToken_eq (h : Interns words)
    (ht : words.lookup s = some t) : wordToken (refIn words) s = t := by
  rw [wordToken]
  cases hr : reserved.lookup s with
  | some t' =>
      rw [h.keeps hr] at ht
      exact Option.some.inj ht
  | none =>
      rcases h.other ht with hr' | ⟨i, rfl⟩
      · rw [hr] at hr'
        cases hr'
      · rw [refIn, ht]
        rfl

/-- Different identifiers are different objects. -/
theorem refIn_injective {l : Lexer} (hinv : l.Inv) (h : Interns l.words)
    (hs : (l.words.lookup s).isSome) (hs' : (l.words.lookup s').isSome)
    (hr : reserved.lookup s = none) (hr' : reserved.lookup s' = none)
    (heq : refIn l.words s = refIn l.words s') : s = s' := by
  have hentry : ∀ k, (l.words.lookup k).isSome → reserved.lookup k = none →
      l.words[refIn l.words k]? = some (k, .id ⟨k, refIn l.words k⟩) := by
    intro k hk hkr
    obtain ⟨t, ht⟩ := Option.isSome_iff_exists.mp hk
    rcases h.other ht with hr | ⟨i, rfl⟩
    · rw [hkr] at hr
      cases hr
    · obtain ⟨j, hj⟩ := List.getElem?_of_mem (lookup_some ht)
      have hid := (hinv.words j k _ hj).2 _ rfl
      cases hid
      rw [refIn, ht]
      exact hj
  have hk := hentry s hs hr
  rw [heq, hentry s' hs' hr'] at hk
  cases hk
  rfl

/-- The table has the word, if it is one. -/
def Known (words : List (List Char × Token)) : Spelled → Prop
  | .word s _ => (words.lookup s).isSome = true
  | _ => True

theorem Known.mono {t : Spelled} (h : words <+: words')
    (ht : Known words t) : Known words' t := by
  cases t with
  | word s hs =>
      obtain ⟨u, hu⟩ := Option.isSome_iff_exists.mp ht
      exact Option.isSome_iff_exists.mpr ⟨u, lookup_extend h hu⟩
  | _ => trivial

/-- What has been interned stays what it is. -/
theorem Known.token_eq {t : Spelled} (hI : Interns words)
    (hI' : Interns words') (h : words <+: words') (ht : Known words t) :
    t.tokenBy (wordToken (refIn words)) =
      t.tokenBy (wordToken (refIn words')) := by
  cases t with
  | word s hs =>
      obtain ⟨u, hu⟩ := Option.isSome_iff_exists.mp ht
      show wordToken _ s = wordToken _ s
      rw [hI.wordToken_eq hu, hI'.wordToken_eq (lookup_extend h hu)]
  | _ => rfl

end Words

/-! ## Reading what was written -/

section Reading

variable {l l' : Lexer} {gap last : List Blank} {t : Spelled}
  {rest : List UInt8}

/-- From `l` on a call of `scan` reads `t`, behind the blanks `gap`. -/
structure Reads1 (l : Lexer) (gap : List Blank) (t : Spelled)
    (rest : List UInt8) (l' : Lexer) : Prop where
  scan : l.scan = (t.tokenBy (wordToken (refIn l'.words)), l')
  text : l'.At rest
  line : l'.line = l.line + Int32.ofNat (gap.count .newline)
  words : l.words <+: l'.words
  interns : Interns l'.words
  known : Known l'.words t

theorem scanName_reads (hI : Interns l.words) {s : List Char}
    (hs : scanWord [] l.peek l.input = (s, readch rest)) :
    ∃ words, l.scanName = (wordToken (refIn words) s, { l with
        words := words
        peek := (readch rest).1
        input := (readch rest).2 }) ∧
      l.words <+: words ∧ Interns words ∧ (words.lookup s).isSome = true := by
  rw [Lexer.scanName, hs]
  cases hw : l.words.lookup s with
  | some t =>
      refine ⟨l.words, ?_, List.prefix_refl _, hI, by rw [hw]; rfl⟩
      rw [hI.wordToken_eq hw]
      dsimp only
      rw [hw]
  | none =>
      have hpush := lookup_push_self (w := .id ⟨s, l.words.length⟩) hw
      have hI' := hI.push hw l.words.length
      refine ⟨_, ?_, List.prefix_append _ _, hI', by rw [hpush]; rfl⟩
      rw [hI'.wordToken_eq hpush]
      dsimp only
      rw [hw]

theorem Num.eq_of_lit {n m : Num} (h : n.lit = m.lit) : n = m := by
  obtain ⟨value, lit, hvalue⟩ := n
  obtain ⟨value', lit', hvalue'⟩ := m
  cases h
  cases hvalue.trans hvalue'.symm
  rfl

/-- A written token begins with a character that is no blank. -/
theorem Spelled.text_cons (t : Spelled) : ∃ c cs, t.text = c :: cs ∧
    Ascii c ∧ isBlank c = false := by
  cases t with
  | word s h =>
      match s, h with
      | c :: cs, h =>
          obtain ⟨hstart, hall⟩ := Bool.and_eq_true_iff.mp h
          have hascii := (Bool.and_eq_true_iff.mp
            (List.all_eq_true.mp hall c List.mem_cons_self)).1
          refine ⟨c, cs, rfl, of_decide_eq_true hascii, ?_⟩
          rw [← Bool.not_eq_true]
          intro hblank
          rcases isBlank_iff.mp hblank with rfl | rfl | rfl <;>
            exact absurd hstart (by decide)
  | num n h =>
      obtain ⟨c, cs, hcs⟩ := List.exists_cons_of_ne_nil
        (@Nat.toDigits_ne_nil n 10)
      have hmem : c ∈ Nat.toDigits 10 n := by
        rw [hcs]
        exact List.mem_cons_self
      have hdigit := isDigit_of_mem hmem
      refine ⟨c, cs, hcs, ascii_of_isDigit hdigit, ?_⟩
      rw [← Bool.not_eq_true]
      intro hblank
      rcases isBlank_iff.mp hblank with rfl | rfl | rfl <;>
        exact absurd hdigit (by decide)
  | pair p => cases p <;> exact ⟨_, _, rfl, by decide, by decide⟩
  | chr c h =>
      obtain ⟨hchar, -⟩ := Bool.and_eq_true_iff.mp h
      obtain ⟨hascii, hblank⟩ := Bool.and_eq_true_iff.mp hchar
      exact ⟨c, [], rfl, of_decide_eq_true hascii,
        Bool.not_eq_true' _ ▸ hblank⟩

/-- A token that is no word leaves the table as it is. -/
theorem reads_moved {c p : Char} {i j : List UInt8}
    (hI : Interns l.words) (hknown : Known l.words t)
    (hskip : l.skipped = { l with
      line := l.line + Int32.ofNat (gap.count .newline)
      peek := c
      input := j })
    (hscan : l.scan = (t.tokenBy (wordToken (refIn l.words)),
      { l.skipped with
        peek := p
        input := i }))
    (hat : (p = ' ' ∧ i = rest) ∨ (p, i) = readch rest) :
    ∃ l', Reads1 l gap t rest l' := by
  rw [hskip] at hscan
  let l' : Lexer := { l with
    line := l.line + Int32.ofNat (gap.count .newline)
    peek := p
    input := i }
  exact ⟨l', hscan, hat, rfl, List.prefix_refl _, hI, hknown⟩

/-- One token, up to something that cannot belong to it. -/
theorem scan_reads (hI : Interns l.words)
    (hat : l.At (bytes (gap.map Blank.char) ++ (bytes t.text ++ rest)))
    (hrest : Apart (readch rest).1) : ∃ l', Reads1 l gap t rest l' := by
  obtain ⟨c, cs, hcs, hascii, hblank⟩ := t.text_cons
  have hread : readch (bytes t.text ++ rest) = (c, bytes cs ++ rest) := by
    rw [hcs, readch_bytes hascii]
  have hskip := skipped_at hat (by rw [hread]; exact hblank)
  rw [hread] at hskip
  have hpeek : l.skipped.peek = c := by rw [hskip]
  have hinput : l.skipped.input = bytes cs ++ rest := by rw [hskip]
  have hwords : l.skipped.words = l.words := by rw [hskip]
  have htext : (l.skipped.peek, l.skipped.input) =
      readch (bytes t.text ++ rest) := by
    rw [hread, hpeek, hinput]
  obtain ⟨hdigit, -, -, hdot, hsecond⟩ := hrest.not_part
  cases t with
  | word s h =>
      have hstart : isLetter l.skipped.peek = true ∨ l.skipped.peek = '_' := by
        have hs : s = c :: cs := hcs
        rw [hs] at h
        rw [hpeek]
        simpa using (Bool.and_eq_true_iff.mp h).1
      have hword : scanWord [] l.skipped.peek l.skipped.input =
          (s, readch rest) := by
        have hrun := scanWord_text h hrest
        rw [← show _ = readch (bytes s ++ rest) from htext] at hrun
        exact hrun
      rw [← hwords] at hI
      obtain ⟨words, hname, hprefix, hI', hsome⟩ := scanName_reads hI hword
      have hscan := (scan_name hstart).trans hname
      let l' : Lexer := { l.skipped with
        words := words
        peek := (readch rest).1
        input := (readch rest).2 }
      refine ⟨l', hscan, .inr rfl, ?_, hwords ▸ hprefix, hI', hsome⟩
      show l.skipped.line = _
      rw [hskip]
  | num n h =>
      have hds : ∀ d ∈ Nat.toDigits 10 n, isDigit d = true :=
        fun d hd => isDigit_of_mem hd
      obtain ⟨m, hlit, hscan⟩ :=
        scan_digits Nat.toDigits_ne_nil hds htext hdigit hdot
      rw [Nat.ofDigitChars_ten_toDigits] at hlit
      have hm : m = ⟨n, n, (wrap_of_lt h).symm⟩ := Num.eq_of_lit hlit
      rw [hm] at hscan
      exact reads_moved hI trivial hskip hscan (.inr rfl)
  | pair p =>
      obtain ⟨rfl, rfl⟩ := List.cons.inj hcs
      have hfound : readch l.skipped.input = (p.second, rest) := by
        rw [hinput]
        exact readch_bytes (by cases p <;> decide) [] rest
      have hscan := scan_pair hpeek
      rw [scanPair_found hfound] at hscan
      exact reads_moved hI trivial hskip hscan (.inl ⟨rfl, rfl⟩)
  | chr d h =>
      obtain ⟨rfl, rfl⟩ := List.cons.inj hcs
      have hinput : l.skipped.input = rest := hinput
      by_cases hpair : ∃ p : Pair, d = p.first
      · obtain ⟨p, rfl⟩ := hpair
        have hscan := scan_pair hpeek
        rw [scanPair_alone (by rw [hinput]; exact hsecond p), hpeek,
          hinput] at hscan
        exact reads_moved hI trivial hskip hscan (.inr rfl)
      · have hscan := scan_other (hpeek ▸ h)
          (hpeek ▸ fun p he => hpair ⟨p, he⟩)
        rw [hpeek] at hscan
        exact reads_moved hI trivial hskip hscan (.inl ⟨rfl, hinput⟩)

/-! ## All of them -/

theorem render_cons (p : List Blank × Spelled)
    (pieces : List (List Blank × Spelled)) (last : List Blank) :
    render (p :: pieces) last =
      p.1.map Blank.char ++ (p.2.text ++ render pieces last) := by
  rw [render, render, List.flatMap_cons, List.append_assoc, List.append_assoc]

theorem apart_blanks {b : Blank} {cs : List Char} {input : List UInt8} :
    Apart (readch (bytes (b.char :: cs) ++ input)).1 := by
  rw [readch_bytes (by cases b <;> decide)]
  show Apart b.char
  cases b <;> exact .inl rfl

/-- Where blanks separate the tokens, something apart is behind each. -/
theorem apart_render {pieces : List (List Blank × Spelled)}
    (hsep : ∀ p ∈ pieces.head?, p.1 ≠ []) :
    Apart (readch (bytes (render pieces last))).1 := by
  cases pieces with
  | nil =>
      cases last with
      | nil => exact .inr rfl
      | cons b last =>
          rw [← List.append_nil (bytes _)]
          exact apart_blanks
  | cons p pieces =>
      obtain ⟨b, gap, hgap⟩ := List.exists_cons_of_ne_nil (hsep p rfl)
      rw [render_cons, bytes_append, hgap, List.map_cons]
      exact apart_blanks

theorem scan_inv (h : l.Inv) : l.scan.2.Inv := by
  rcases scan_cases h with ⟨-, hscan, hinput⟩ | ⟨-, hinv, -⟩
  · rw [hscan]
    exact (skipped_spec h).1.moved fun _ => hinput
  · exact hinv

/-- From `l` on the tokens of `pieces` are read, and `last` is left. -/
structure ReadsAll (l : Lexer) (pieces : List (List Blank × Spelled))
    (last : List Blank) (l' : Lexer) : Prop where
  scans : l.scans pieces.length = (pieces.map fun p =>
    p.2.tokenBy (wordToken (refIn l'.words)), l')
  text : l'.At (bytes (last.map Blank.char))
  line : l'.line =
    l.line + Int32.ofNat (pieces.map fun p => p.1.count .newline).sum
  inv : l'.Inv
  words : l.words <+: l'.words
  interns : Interns l'.words
  known : ∀ p ∈ pieces, Known l'.words p.2

theorem Reads1.then {pieces : List (List Blank × Spelled)} {l₁ : Lexer}
    (h : Reads1 l gap t rest l₁) (h' : ReadsAll l₁ pieces last l') :
    ReadsAll l ((gap, t) :: pieces) last l' where
  scans := by
    rw [List.length_cons, Lexer.scans, h.scan]
    dsimp only
    rw [h'.scans, h.known.token_eq h.interns h'.interns h'.words]
    rfl
  text := h'.text
  line := by
    rw [h'.line, h.line, List.map_cons, List.sum_cons, Int32.ofNat_add,
      Int32.add_assoc]
  inv := h'.inv
  words := h.words.trans h'.words
  interns := h'.interns
  known := List.forall_mem_cons.mpr ⟨h.known.mono h'.words, h'.known⟩

theorem scans_reads {pieces : List (List Blank × Spelled)} :
    ∀ {l : Lexer}, l.Inv → Interns l.words → l.At (bytes (render pieces last)) →
      (∀ p ∈ pieces.tail, p.1 ≠ []) → ∃ l', ReadsAll l pieces last l' := by
  induction pieces with
  | nil =>
      intro l hinv hI hat _
      exact ⟨l, rfl, hat, (Int32.add_zero l.line).symm, hinv,
        List.prefix_refl _, hI, nofun⟩
  | cons p pieces ih =>
      intro l hinv hI hat hsep
      have hapart : Apart (readch (bytes (render pieces last))).1 :=
        apart_render fun q hq => hsep q (List.mem_of_mem_head? hq)
      rw [render_cons, bytes_append, bytes_append] at hat
      obtain ⟨l₁, h₁⟩ := scan_reads hI hat hapart
      have hinv₁ : l₁.Inv := by
        have hinv' := scan_inv hinv
        rw [h₁.scan] at hinv'
        exact hinv'
      obtain ⟨l', h'⟩ := ih hinv₁ h₁.interns h₁.text
        fun q hq => hsep q (List.mem_of_mem_tail hq)
      exact ⟨l', h₁.then h'⟩

end Reading

theorem Spelled.no_newline (t : Spelled) : '\n' ∉ t.text := by
  cases t with
  | word s h =>
      intro hmem
      match s, h, hmem with
      | c :: cs, h, hmem =>
          have hall := List.all_eq_true.mp (Bool.and_eq_true_iff.mp h).2
          exact absurd (hall _ hmem) (by decide)
  | num n h => exact fun hmem => absurd (isDigit_of_mem hmem) (by decide)
  | pair p => cases p <;> decide
  | chr c h =>
      intro hmem
      obtain rfl : '\n' = c := List.mem_singleton.mp hmem
      exact absurd h (by decide)

theorem count_newline (gap : List Blank) :
    (gap.map Blank.char).count '\n' = gap.count .newline := by
  induction gap with
  | nil => rfl
  | cons b gap ih =>
      rw [List.map_cons, List.count_cons, List.count_cons, ih]
      cases b <;> rfl

theorem count_render (pieces : List (List Blank × Spelled))
    (last : List Blank) : (render pieces last).count '\n' =
      (pieces.map fun p => p.1.count .newline).sum + last.count .newline := by
  induction pieces with
  | nil => rw [render, List.flatMap_nil, List.nil_append, count_newline]; simp
  | cons p pieces ih =>
      rw [render_cons, List.count_append, List.count_append, count_newline, ih,
        List.count_eq_zero.mpr p.2.no_newline, List.map_cons, List.sum_cons]
      omega

/-- Tokens that are written out with blanks between them are read back, the
same object for the same identifier and another for another; then comes the
end of file, and `line` has counted every newline, as far as an `int` can
count. -/
theorem scans_render (pieces : List (List Blank × Spelled))
    (last : List Blank) (hsep : ∀ p ∈ pieces.tail, p.1 ≠ []) :
    ∃ (ref : List Char → Nat) (l l' : Lexer),
      (Lexer.new (bytes (render pieces last))).scans pieces.length =
        (pieces.map fun p => p.2.tokenBy (wordToken ref), l) ∧
      l.scan = (Token.eof, l') ∧
      l'.line = Int32.ofNat (1 + (render pieces last).count '\n') ∧
      ∀ p ∈ pieces, ∀ q ∈ pieces, ∀ s s' h h',
        p.2 = .word s h → q.2 = .word s' h' → reserved.lookup s = none →
        reserved.lookup s' = none → ref s = ref s' → s = s' := by
  have hinv := Lexer.new_inv (bytes (render pieces last))
  obtain ⟨l, h⟩ := scans_reads hinv interns_reserved (.inl ⟨rfl, rfl⟩) hsep
  have hat := h.text
  rw [← List.append_nil (bytes _)] at hat
  have hskip := skipped_at hat rfl
  refine ⟨refIn l.words, l, _, h.scans, scan_atEnd (by rw [hskip]; rfl), ?_, ?_⟩
  · show l.skipped.line = _
    rw [hskip, count_render, ← Nat.add_assoc, Int32.ofNat_add,
      Int32.ofNat_add]
    show l.line + _ = _
    rw [h.line]
    rfl
  · intro p hp q hq s s' hs hs' hps hqs hr hr' heq
    have hknown := h.known p hp
    have hknown' := h.known q hq
    rw [hps] at hknown
    rw [hqs] at hknown'
    exact refIn_injective h.inv h.interns hknown hknown' hr hr' heq

/-- `while x1 <= 10`, a newline, and `x1 =`. -/
theorem scans_render_assignment :
    let x1 : Spelled := .word ['x', '1'] rfl
    let pieces : List (List Blank × Spelled) :=
      [([], .word "while".toList rfl), ([.space], x1), ([.tab], .pair .le),
        ([.space], .num 10 (by decide)), ([.newline, .space], x1),
        ([.space], .chr '=' rfl)]
    ∃ (ref : List Char → Nat) (l l' : Lexer),
      (Lexer.new (bytes (render pieces []))).scans 6 =
        ([.while, .id ⟨['x', '1'], ref ['x', '1']⟩, .le,
          .num ⟨10, 10, by decide⟩, .id ⟨['x', '1'], ref ['x', '1']⟩,
          .chr '='], l) ∧
      l.scan = (Token.eof, l') ∧ l'.line = 2 := by
  intro x1 pieces
  obtain ⟨ref, l, l', hscans, heof, hline, -⟩ :=
    scans_render pieces [] (by decide)
  exact ⟨ref, l, l', hscans, heof, hline⟩

end LearningLinux.FrontEnd
