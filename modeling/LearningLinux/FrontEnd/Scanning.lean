import LearningLinux.FrontEnd.Parser

/-!
# What the lexer hands to the parser

The loops of `scan` go on while the character read is of a kind, and read
another one each time. They are written as recursions over the input in
`Lexer`; `readLoop` is the loop as it runs, with no regard to the end of the
input, and it is shown to stop with the same result: none of these kinds has
the character that stands for the end.

From there the tokens are followed to the end. Every one of them but the end
of file takes a byte at least (`pending`), the end of file comes back forever
(`scan_stream`), and two identifiers are the same object if and only if they
are spelled alike (`Interned`).
-/

namespace LearningLinux.FrontEnd

/-! ## The loops that read -/

/-- `for (;; readch())` with a body that goes on with `some` state or breaks
off. -/
def readLoop {σ : Type} (body : σ → Char → Option σ) :
    Nat → σ → Char → List UInt8 → Option (σ × Char × List UInt8)
  | 0, _, _, _ => none
  | fuel + 1, st, peek, input =>
      match body st peek with
      | none => some (st, peek, input)
      | some st' => readLoop body fuel st' (readch input).1 (readch input).2

theorem byte_ne_eofChar (b : UInt8) : Char.ofNat b.toNat ≠ eofChar := by
  have hb : b.toNat < 256 := b.toNat_lt
  have hvalid : b.toNat.isValidChar := Or.inl (by omega)
  intro h
  have hval : b.toNat = eofChar.toNat := by
    rw [← h, Char.ofNat, dif_pos hvalid]
    rfl
  have heof : eofChar.toNat = 0xFFFF := by decide
  omega

theorem readch_eof {input : List UInt8} (h : (readch input).1 = eofChar) :
    (readch input).2 = [] := by
  cases input with
  | nil => rfl
  | cons b rest => exact absurd h (byte_ne_eofChar b)

/-- The bytes a lexer with this lookahead has still to read or to turn into a
token. -/
def pending (peek : Char) (input : List UInt8) : Nat :=
  input.length + if peek = ' ' ∨ peek = eofChar then 0 else 1

theorem pending_eof (peek : Char) (input : List UInt8) :
    input.length ≤ pending peek input := by
  rw [pending]
  omega

theorem pending_le (peek : Char) (input : List UInt8) :
    pending peek input ≤ input.length + 1 := by
  rw [pending]
  split <;> omega

theorem pending_readch (input : List UInt8) :
    pending (readch input).1 (readch input).2 ≤ input.length := by
  cases input with
  | nil => decide
  | cons b rest => exact pending_le _ _

section ReadLoop

variable {σ : Type} {body : σ → Char → Option σ}

/-- A loop that does not go on at the end of the input stops where the body
first breaks off, and each round has taken a byte. -/
theorem readLoop_stops : ∀ (fuel : Nat) {st st' : σ} {peek p : Char}
    {input rest : List UInt8},
    readLoop body fuel st peek input = some (st', p, rest) →
    body st' p = none ∧
      (st' = st ∧ p = peek ∧ rest = input ∨
        body st peek ≠ none ∧ pending p rest ≤ input.length ∧
          (p = eofChar → rest = [])) := by
  intro fuel
  induction fuel with
  | zero => intro st st' peek p input rest h; cases h
  | succ fuel ih =>
      intro st st' peek p input rest h
      rw [readLoop] at h
      cases hb : body st peek with
      | none =>
          rw [hb] at h
          cases h
          exact ⟨hb, Or.inl ⟨rfl, rfl, rfl⟩⟩
      | some st₁ =>
          simp only [hb] at h
          obtain ⟨hstop, hread⟩ := ih h
          refine ⟨hstop, Or.inr ⟨nofun, ?_⟩⟩
          have hle := pending_readch input
          obtain ⟨-, rfl, rfl⟩ | ⟨-, hp, heof⟩ := hread
          · exact ⟨hle, readch_eof⟩
          · have hlen := pending_eof (readch input).1 (readch input).2
            exact ⟨by omega, heof⟩

/-- A function over the input is what the loop computes, given its equations:
it follows the body and ends where the body does, or with the input. -/
theorem readLoop_halts {run : σ → Char → List UInt8 → σ × Char × List UInt8}
    (heof : ∀ st, body st eofChar = none)
    (hnil : ∀ st peek, run st peek [] = match body st peek with
      | none => (st, peek, [])
      | some st' => (st', eofChar, []))
    (hcons : ∀ st peek b rest, run st peek (b :: rest) =
      match body st peek with
      | none => (st, peek, b :: rest)
      | some st' => run st' (Char.ofNat b.toNat) rest) :
    ∀ (input : List UInt8) (fuel : Nat) (st : σ) (peek : Char),
      input.length + 2 ≤ fuel →
      readLoop body fuel st peek input = some (run st peek input) := by
  intro input
  induction input with
  | nil =>
      intro fuel st peek hfuel
      obtain ⟨k, rfl⟩ := Nat.exists_eq_add_of_le hfuel
      rw [List.length_nil, Nat.zero_add, Nat.add_comm 2 k, readLoop, hnil]
      cases body st peek with
      | none => rfl
      | some st' =>
          show readLoop body (k + 1) st' eofChar [] = _
          rw [readLoop, heof]
  | cons b rest ih =>
      intro fuel st peek hfuel
      rw [List.length_cons] at hfuel
      obtain ⟨k, rfl⟩ : ∃ k, fuel = k + 1 := ⟨fuel - 1, by omega⟩
      rw [readLoop, hcons]
      cases body st peek with
      | none => rfl
      | some st' => exact ih k st' _ (by omega)

end ReadLoop

/-! ### The four loops of `scan` -/

def blankBody (line : Int32) (peek : Char) : Option Int32 :=
  if peek = ' ' ∨ peek = '\t' then some line
  else if peek = '\n' then some (line + 1)
  else none

def intBody (n : Num) (peek : Char) : Option Num :=
  if isDigit peek then some (n.push (digit peek)) else none

def fracBody (ds : List Nat) (peek : Char) : Option (List Nat) :=
  if isDigit peek then some (ds ++ [digit peek]) else none

def wordBody (s : List Char) (peek : Char) : Option (List Char) :=
  if isLetter peek || isDigit peek || peek == '_' then some (s ++ [peek])
  else none

section Loops

variable {fuel : Nat} {input : List UInt8}

theorem skipBlanks_halts (h : input.length + 2 ≤ fuel) (line : Int32)
    (peek : Char) :
    readLoop blankBody fuel line peek input =
      some (skipBlanks line peek input) := by
  refine readLoop_halts (fun st => rfl) ?_ ?_ input fuel line peek h
  · intro st p
    rw [skipBlanks, blankBody]
    split_ifs <;> rfl
  · intro st p b rest
    rw [skipBlanks, blankBody]
    split_ifs <;> rfl

theorem scanInt_halts (h : input.length + 2 ≤ fuel) (n : Num) (peek : Char) :
    readLoop intBody fuel n peek input = some (scanInt n peek input) := by
  refine readLoop_halts (fun st => rfl) ?_ ?_ input fuel n peek h
  · intro st p
    rw [scanInt, intBody]
    split_ifs <;> rfl
  · intro st p b rest
    rw [scanInt, intBody]
    split_ifs <;> rfl

theorem scanWord_halts (h : input.length + 2 ≤ fuel) (s : List Char)
    (peek : Char) :
    readLoop wordBody fuel s peek input = some (scanWord s peek input) := by
  refine readLoop_halts (fun st => rfl) ?_ ?_ input fuel s peek h
  · intro st p
    rw [scanWord, wordBody]
    split_ifs <;> rfl
  · intro st p b rest
    rw [scanWord, wordBody]
    split_ifs <;> rfl

/-- The loop behind the point reads before its test, so the function over the
input starts one character later. -/
theorem scanFrac_halts (h : input.length + 2 ≤ fuel) (ds : List Nat) :
    readLoop fracBody fuel ds (readch input).1 (readch input).2 =
      some (scanFrac ds input) := by
  induction input generalizing fuel ds with
  | nil =>
      obtain ⟨k, rfl⟩ : ∃ k, fuel = k + 1 := ⟨fuel - 1, by omega⟩
      rfl
  | cons b rest ih =>
      rw [List.length_cons] at h
      obtain ⟨k, rfl⟩ : ∃ k, fuel = k + 1 := ⟨fuel - 1, by omega⟩
      rw [scanFrac]
      by_cases hd : isDigit (Char.ofNat b.toNat)
      · have hbody : fracBody ds (readch (b :: rest)).1 =
            some (ds ++ [digit (Char.ofNat b.toNat)]) := if_pos hd
        simp only [readLoop, hbody, if_pos hd]
        exact ih (by omega) _
      · have hbody : fracBody ds (readch (b :: rest)).1 = none := if_neg hd
        simp only [readLoop, hbody, if_neg hd]
        rfl

end Loops

/-! ## One token -/

structure Lexer.Inv (l : Lexer) : Prop where
  atEnd : l.peek = eofChar → l.input = []
  keys : (l.words.map Prod.fst).Nodup
  words : ∀ (i : Nat) (s : List Char) (t : Token),
    l.words[i]? = some (s, t) →
    t ≠ Token.eof ∧ ∀ w : Word, t = .id w → w = ⟨s, i⟩

/-- The invariant is about the words and the end of the input only. -/
theorem Lexer.Inv.moved {l : Lexer} (h : l.Inv) {line : Int32} {peek : Char}
    {input : List UInt8} (hend : peek = eofChar → input = []) :
    Lexer.Inv { l with
      line := line
      peek := peek
      input := input } :=
  ⟨hend, h.keys, h.words⟩

theorem Lexer.new_inv (input : List UInt8) : (Lexer.new input).Inv where
  atEnd := fun h => absurd h (by decide : ' ' ≠ eofChar)
  keys := by
    show ((Lexer.new []).words.map Prod.fst).Nodup
    decide
  words := by
    intro i s t h
    have hreserved : ∀ e ∈ (Lexer.new []).words,
        e.2 ≠ Token.eof ∧ e.2.asId = none := by decide
    have hmem := hreserved (s, t) (List.mem_of_getElem? h)
    refine ⟨hmem.1, fun w hw => ?_⟩
    rw [hw] at hmem
    cases hmem.2

/-- The lexer has made a token other than the end of file out of its
lookahead, and of what it read behind it. -/
structure Takes (l : Lexer) (r : Token × Lexer) : Prop where
  token : r.1 ≠ Token.eof
  inv : r.2.Inv
  shorter : pending r.2.peek r.2.input ≤ l.input.length
  words : l.words <+: r.2.words
  interned : ∀ w : Word, r.1 = .id w → (w.lexeme, Token.id w) ∈ r.2.words

section Takes

variable {l : Lexer}

/-- A token that is no word leaves `words` alone. -/
theorem takes_of_moved (h : l.Inv) {t : Token} (ht : t ≠ Token.eof)
    (hid : t.asId = none) {peek : Char} {input : List UInt8}
    (hend : peek = eofChar → input = [])
    (hlen : pending peek input ≤ l.input.length) :
    Takes l (t, { l with
      peek := peek
      input := input }) where
  token := ht
  inv := h.moved hend
  shorter := hlen
  words := List.prefix_refl _
  interned := fun w hw => by
    have hw' : t = .id w := hw
    rw [hw'] at hid
    cases hid

theorem scanPair_takes (h : l.Inv) (hpeek : l.peek ≠ eofChar) {second : Char}
    {two : Token} (htwo : two ≠ Token.eof) (hid : two.asId = none) :
    Takes l (l.scanPair second two) := by
  have hread := pending_readch l.input
  have hend := @readch_eof l.input
  rw [Lexer.scanPair, Lexer.readchIs]
  cases hr : readch l.input with
  | mk p rest =>
      rw [hr] at hread hend
      dsimp only at hread hend ⊢
      by_cases hp : p = second
      · rw [if_neg (not_not.mpr hp)]
        refine takes_of_moved h htwo hid (fun he => ?_) ?_
        · exact absurd he (by decide)
        · have hlen := pending_eof p rest
          rw [pending, if_pos (Or.inl rfl)]
          omega
      · rw [if_pos hp]
        refine takes_of_moved h (fun ht => ?_) rfl hend hread
        exact hpeek (Token.chr.inj ht)

/-- What a loop leaves that has gone round once at least. -/
theorem readLoop_taken {σ : Type} {body : σ → Char → Option σ} {fuel : Nat}
    {st st' : σ} {peek p : Char} {input rest : List UInt8}
    (h : readLoop body fuel st peek input = some (st', p, rest))
    (hbody : body st peek ≠ none) :
    pending p rest ≤ input.length ∧ (p = eofChar → rest = []) := by
  obtain ⟨hstop, ⟨rfl, rfl, -⟩ | ⟨-, hread⟩⟩ := readLoop_stops fuel h
  · exact absurd hstop hbody
  · exact hread

/-- The digits behind the point, if `p` is one. -/
theorem scanFrac_takes (h : l.Inv) (whole : Int) {input : List UInt8}
    (hlen : input.length ≤ l.input.length) {ds : List Nat} {p : Char}
    {rest : List UInt8} (hf : scanFrac [] input = (ds, p, rest)) :
    Takes l (.real ⟨whole, ds⟩, { l with
      peek := p
      input := rest }) := by
  have hloop := scanFrac_halts (Nat.le_refl (input.length + 2)) []
  rw [hf] at hloop
  have hle := pending_readch input
  have hge := pending_eof (readch input).1 (readch input).2
  obtain ⟨-, ⟨-, rfl, rfl⟩ | ⟨-, hread, hend⟩⟩ := readLoop_stops _ hloop
  · exact takes_of_moved (t := .real _) h nofun rfl readch_eof (by omega)
  · exact takes_of_moved (t := .real _) h nofun rfl hend (by omega)

theorem scanNumber_takes (h : l.Inv)
    (hpeek : isDigit l.peek ∨ l.peek = '.') : Takes l l.scanNumber := by
  rw [Lexer.scanNumber]
  by_cases hdot : l.peek = '.'
  · rw [if_neg (not_not.mpr hdot)]
    dsimp only
    rw [if_neg (not_not.mpr hdot)]
    cases hf : scanFrac [] l.input with
    | mk ds r =>
        exact scanFrac_takes h _ (Nat.le_refl _) hf
  · rw [if_pos hdot]
    have hdigit : isDigit l.peek := hpeek.resolve_right hdot
    have hloop := scanInt_halts (Nat.le_refl (l.input.length + 2)) Num.zero
      l.peek
    cases hi : scanInt Num.zero l.peek l.input with
    | mk n r =>
        obtain ⟨p, rest⟩ := r
        rw [hi] at hloop
        have hbody : intBody Num.zero l.peek ≠ none := by
          rw [intBody, if_pos hdigit]
          nofun
        obtain ⟨hread, hend⟩ := readLoop_taken hloop hbody
        dsimp only
        by_cases hp : p = '.'
        · rw [if_neg (not_not.mpr hp)]
          have hlen := pending_eof p rest
          cases hf : scanFrac [] rest with
          | mk ds r =>
              exact scanFrac_takes h _ (by omega) hf
        · rw [if_pos hp]
          exact takes_of_moved (t := .num _) h nofun rfl hend hread

theorem lookup_none {words : List (List Char × Token)} {s : List Char}
    (h : words.lookup s = none) : s ∉ words.map Prod.fst := by
  rw [List.lookup_eq_none_iff] at h
  intro hmem
  obtain ⟨p, hp, rfl⟩ := List.mem_map.mp hmem
  have hne := h p hp
  rw [bne_self_eq_false] at hne
  cases hne

theorem lookup_some {words : List (List Char × Token)} {s : List Char}
    {t : Token} (h : words.lookup s = some t) : (s, t) ∈ words := by
  obtain ⟨l₁, l₂, hl, -⟩ := List.lookup_eq_some_iff.mp h
  rw [hl]
  exact List.mem_append_right _ List.mem_cons_self

/-- A new word keeps the table in order. -/
theorem Lexer.Inv.push (h : l.Inv) {s : List Char}
    (hnew : l.words.lookup s = none) :
    Lexer.Inv { l with
      words := l.words ++ [(s, .id ⟨s, l.words.length⟩)] } where
  atEnd := h.atEnd
  keys := by
    rw [List.map_append, List.nodup_append]
    refine ⟨h.keys, by simp, ?_⟩
    intro a ha b hb hab
    rw [List.map_singleton, List.mem_singleton] at hb
    rw [hab, hb] at ha
    exact lookup_none hnew ha
  words := by
    intro i k t hi
    rw [List.getElem?_append] at hi
    split at hi
    · exact h.words i k t hi
    · next hlen =>
        rw [List.getElem?_singleton] at hi
        split at hi
        · next h0 =>
            cases hi
            refine ⟨nofun, fun w hw => ?_⟩
            have hi' : i = l.words.length := by omega
            rw [hi']
            exact (Token.id.inj hw).symm
        · cases hi

theorem scanName_takes (h : l.Inv)
    (hpeek : isLetter l.peek ∨ l.peek = '_') : Takes l l.scanName := by
  rw [Lexer.scanName]
  have hloop := scanWord_halts (Nat.le_refl (l.input.length + 2)) [] l.peek
  cases hs : scanWord [] l.peek l.input with
  | mk s r =>
      obtain ⟨p, rest⟩ := r
      rw [hs] at hloop
      have hbody : wordBody [] l.peek ≠ none := by
        have hword : (isLetter l.peek || isDigit l.peek || l.peek == '_') := by
          obtain hl | hu := hpeek
          · simp [hl]
          · simp [hu]
        rw [wordBody, if_pos hword]
        nofun
      obtain ⟨hread, hend⟩ := readLoop_taken hloop hbody
      dsimp only
      cases hw : l.words.lookup s with
      | some t =>
          have hmem := lookup_some hw
          obtain ⟨i, hi⟩ := List.getElem?_of_mem hmem
          obtain ⟨ht, hid⟩ := h.words i s t hi
          refine ⟨ht, h.moved hend, hread, List.prefix_refl _, ?_⟩
          intro w hw'
          have hw' : t = .id w := hw'
          rw [hw'] at hmem
          rw [hid w hw'] at hmem ⊢
          exact hmem
      | none =>
          refine ⟨nofun, (h.moved hend).push hw, hread,
            List.prefix_append _ _, ?_⟩
          intro w hw'
          cases hw'
          exact List.mem_append_right _ List.mem_cons_self

/-- The character that stands for itself. -/
theorem chr_takes (h : l.Inv) (hpeek : l.peek ≠ eofChar) :
    Takes l (.chr l.peek, { l with peek := ' ' }) := by
  refine takes_of_moved h (fun ht => hpeek (Token.chr.inj ht)) rfl
    (fun he => absurd he (by decide)) ?_
  rw [pending, if_pos (Or.inl rfl)]
  omega

end Takes

/-- The state `scan` is in when the blanks are behind it. -/
def Lexer.skipped (l : Lexer) : Lexer :=
  let (line, p, rest) := skipBlanks l.line l.peek l.input
  { l with line := line, peek := p, input := rest }

theorem skipped_spec {l : Lexer} (h : l.Inv) :
    l.skipped.Inv ∧ l.skipped.words = l.words ∧ l.skipped.peek ≠ ' ' ∧
      pending l.skipped.peek l.skipped.input ≤ pending l.peek l.input := by
  have hloop := skipBlanks_halts (Nat.le_refl (l.input.length + 2)) l.line
    l.peek
  rw [Lexer.skipped]
  cases hs : skipBlanks l.line l.peek l.input with
  | mk line r =>
      obtain ⟨p, rest⟩ := r
      rw [hs] at hloop
      obtain ⟨hstop, hread⟩ := readLoop_stops _ hloop
      have hblank : p ≠ ' ' := by
        rintro rfl
        cases hstop
      dsimp only
      obtain ⟨-, rfl, rfl⟩ | ⟨-, hlen, hend⟩ := hread
      · exact ⟨h.moved h.atEnd, rfl, hblank, Nat.le_refl _⟩
      · have hge := pending_eof l.peek l.input
        exact ⟨h.moved hend, rfl, hblank, by omega⟩

theorem scan_eq (l : Lexer) : l.scan = (
    if l.skipped.peek = '&' then l.skipped.scanPair '&' .and
    else if l.skipped.peek = '|' then l.skipped.scanPair '|' .or
    else if l.skipped.peek = '=' then l.skipped.scanPair '=' .eq
    else if l.skipped.peek = '!' then l.skipped.scanPair '=' .ne
    else if l.skipped.peek = '<' then l.skipped.scanPair '=' .le
    else if l.skipped.peek = '>' then l.skipped.scanPair '=' .ge
    else if isDigit l.skipped.peek ∨ l.skipped.peek = '.' then
      l.skipped.scanNumber
    else if isLetter l.skipped.peek ∨ l.skipped.peek = '_' then
      l.skipped.scanName
    else (.chr l.skipped.peek, { l.skipped with peek := ' ' })) := rfl

theorem scan_takes {l : Lexer} (h : l.Inv)
    (hend : l.skipped.peek ≠ eofChar) : Takes l.skipped l.scan := by
  obtain ⟨hinv, -, -, -⟩ := skipped_spec h
  rw [scan_eq]
  split_ifs with _ _ _ _ _ _ hdigit hletter
  · exact scanPair_takes hinv hend (by decide) rfl
  · exact scanPair_takes hinv hend (by decide) rfl
  · exact scanPair_takes hinv hend (by decide) rfl
  · exact scanPair_takes hinv hend (by decide) rfl
  · exact scanPair_takes hinv hend (by decide) rfl
  · exact scanPair_takes hinv hend (by decide) rfl
  · exact scanNumber_takes hinv hdigit
  · exact scanName_takes hinv hletter
  · exact chr_takes hinv hend

theorem scan_atEnd {l : Lexer} (hend : l.skipped.peek = eofChar) :
    l.scan = (Token.eof, { l.skipped with peek := ' ' }) := by
  rw [scan_eq, hend]
  rfl

/-- What one call of `scan` does: it answers the end of file, and there is
nothing left to read, or it takes a byte at least. -/
theorem scan_cases {l : Lexer} (h : l.Inv) :
    (l.skipped.peek = eofChar ∧
      l.scan = (Token.eof, { l.skipped with peek := ' ' }) ∧
      l.skipped.input = []) ∨
    (l.scan.1 ≠ Token.eof ∧ l.scan.2.Inv ∧
      pending l.scan.2.peek l.scan.2.input < pending l.peek l.input ∧
      l.words <+: l.scan.2.words ∧
      ∀ w : Word, l.scan.1 = .id w →
        (w.lexeme, Token.id w) ∈ l.scan.2.words) := by
  obtain ⟨hinv, hwords, hblank, hlen⟩ := skipped_spec h
  by_cases hend : l.skipped.peek = eofChar
  · exact Or.inl ⟨hend, scan_atEnd hend, hinv.atEnd hend⟩
  · have ht := scan_takes h hend
    have hshort := ht.shorter
    rw [pending, if_neg (not_or.mpr ⟨hblank, hend⟩)] at hlen
    have hprefix := ht.words
    rw [hwords] at hprefix
    exact Or.inr ⟨ht.token, ht.inv, by omega, hprefix, ht.interned⟩

/-! ## All tokens -/

theorem tokens_succ (l : Lexer) (fuel : Nat) :
    l.tokens (fuel + 1) =
      if l.scan.1 = Token.eof then [] else l.scan.1 :: l.scan.2.tokens fuel :=
  rfl

/-- Fuel for every byte still pending is enough. -/
theorem tokens_fuel : ∀ (n m : Nat) {l : Lexer}, l.Inv →
    pending l.peek l.input ≤ n → pending l.peek l.input ≤ m →
    l.tokens (n + 1) = l.tokens (m + 1) := by
  intro n
  induction n with
  | zero =>
      intro m l h hn hm
      rw [tokens_succ, tokens_succ]
      obtain ⟨-, hscan, -⟩ | ⟨-, -, hlt, -, -⟩ := scan_cases h
      · rw [hscan, if_pos rfl, if_pos rfl]
      · omega
  | succ n ih =>
      intro m l h hn hm
      rw [tokens_succ l (n + 1), tokens_succ l m]
      obtain ⟨-, hscan, -⟩ | ⟨hne, hinv, hlt, -, -⟩ := scan_cases h
      · rw [hscan, if_pos rfl, if_pos rfl]
      · obtain ⟨k, rfl⟩ : ∃ k, m = k + 1 := ⟨m - 1, by omega⟩
        rw [if_neg hne, if_neg hne, ih k hinv (by omega) (by omega)]

theorem pending_new (input : List UInt8) :
    pending (Lexer.new input).peek (Lexer.new input).input = input.length :=
  rfl

theorem tokenize_fuel (input : List UInt8) {fuel : Nat}
    (h : input.length < fuel) :
    (Lexer.new input).tokens fuel = tokenize input := by
  obtain ⟨k, rfl⟩ : ∃ k, fuel = k + 1 := ⟨fuel - 1, by omega⟩
  have hpending := pending_new input
  exact tokens_fuel k input.length (Lexer.new_inv input) (by omega) (by omega)

/-- What the call of `scan` after `n` others answers. -/
def Lexer.nth (l : Lexer) : Nat → Token
  | 0 => l.scan.1
  | n + 1 => l.scan.2.nth n

theorem nth_atEnd : ∀ (n : Nat) {l : Lexer}, l.skipped.peek = eofChar →
    l.skipped.input = [] → l.nth n = Token.eof := by
  intro n
  induction n with
  | zero =>
      intro l hend _
      rw [Lexer.nth, scan_atEnd hend]
  | succ n ih =>
      intro l hend hinput
      rw [Lexer.nth, scan_atEnd hend]
      refine ih ?_ ?_ <;> (rw [Lexer.skipped]; dsimp only; rw [hinput]; rfl)

theorem nth_tokens : ∀ (n fuel : Nat) {l : Lexer}, l.Inv →
    pending l.peek l.input < fuel →
    l.nth n = (l.tokens fuel).getD n Token.eof := by
  intro n
  induction n with
  | zero =>
      intro fuel l h hfuel
      obtain ⟨k, rfl⟩ : ∃ k, fuel = k + 1 := ⟨fuel - 1, by omega⟩
      rw [Lexer.nth, tokens_succ]
      split
      · next heof => exact heof
      · rfl
  | succ n ih =>
      intro fuel l h hfuel
      obtain ⟨k, rfl⟩ : ∃ k, fuel = k + 1 := ⟨fuel - 1, by omega⟩
      rw [tokens_succ]
      obtain ⟨hend, hscan, hinput⟩ | ⟨hne, hinv, hlt, -, -⟩ := scan_cases h
      · rw [if_pos (by rw [hscan]), nth_atEnd _ hend hinput]
        rfl
      · rw [if_neg hne]
        exact ih k hinv (by omega)

/-- The calls of `scan` answer the tokens of the input and then, forever, the
end of file. -/
theorem scan_stream (input : List UInt8) (n : Nat) :
    (Lexer.new input).nth n = (tokenize input).getD n Token.eof := by
  refine nth_tokens n (input.length + 1) (Lexer.new_inv input) ?_
  rw [pending_new]
  exact Nat.lt_succ_self _

/-! ## Interning -/

theorem tokens_interned : ∀ (fuel : Nat) {l : Lexer}, l.Inv →
    ∃ l' : Lexer, l'.Inv ∧ l.words <+: l'.words ∧
      ∀ w : Word, .id w ∈ l.tokens fuel →
        (w.lexeme, Token.id w) ∈ l'.words := by
  intro fuel
  induction fuel with
  | zero =>
      intro l h
      exact ⟨l, h, List.prefix_refl _, nofun⟩
  | succ fuel ih =>
      intro l h
      rw [tokens_succ]
      obtain ⟨-, hscan, -⟩ | ⟨hne, hinv, -, hwords, hid⟩ := scan_cases h
      · rw [hscan, if_pos rfl]
        exact ⟨l, h, List.prefix_refl _, nofun⟩
      · obtain ⟨l', hinv', hprefix, hids⟩ := ih hinv
        refine ⟨l', hinv', hwords.trans hprefix, fun w hw => ?_⟩
        rw [if_neg hne] at hw
        obtain htok | hrest := List.mem_cons.mp hw
        · exact hprefix.subset (hid w htok.symm)
        · exact hids w hrest

theorem Lexer.Inv.ref_inj {l : Lexer} (h : l.Inv) {w w' : Word}
    (hw : (w.lexeme, Token.id w) ∈ l.words)
    (hw' : (w'.lexeme, Token.id w') ∈ l.words) :
    (w.ref = w'.ref ↔ w = w') ∧ (w.lexeme = w'.lexeme ↔ w = w') := by
  obtain ⟨i, hi⟩ := List.getElem?_of_mem hw
  obtain ⟨j, hj⟩ := List.getElem?_of_mem hw'
  have hwi := (h.words i _ _ hi).2 w rfl
  have hwj := (h.words j _ _ hj).2 w' rfl
  have hsame : i = j → w = w' := by
    rintro rfl
    rw [hi] at hj
    exact Token.id.inj (Prod.mk.inj (Option.some.inj hj)).2
  refine ⟨⟨fun href => hsame ?_, congrArg _⟩, ⟨fun hlex => hsame ?_,
    congrArg _⟩⟩
  · rw [hwi, hwj] at href
    exact href
  · -- the keys of the table are distinct
    have hki : (l.words.map Prod.fst)[i]? = some w.lexeme := by
      rw [List.getElem?_map, hi]
      rfl
    have hkj : (l.words.map Prod.fst)[j]? = some w.lexeme := by
      rw [List.getElem?_map, hj, hlex]
      rfl
    obtain ⟨hlt, -⟩ := List.getElem?_eq_some_iff.mp hki
    exact (List.getElem?_inj hlt h.keys).mp (hki.trans hkj.symm)

/-- Identifiers spelled alike are one object, and no others are. -/
theorem tokenize_interned {input : List UInt8} {w w' : Word}
    (hw : .id w ∈ tokenize input) (hw' : .id w' ∈ tokenize input) :
    (w.ref = w'.ref ↔ w = w') ∧ (w.lexeme = w'.lexeme ↔ w = w') := by
  obtain ⟨l, hinv, -, hids⟩ := tokens_interned (input.length + 1)
    (Lexer.new_inv input)
  exact hinv.ref_inj (hids w hw) (hids w' hw')

end LearningLinux.FrontEnd
