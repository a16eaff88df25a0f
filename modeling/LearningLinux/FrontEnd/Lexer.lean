import Mathlib.Algebra.Group.Int.Defs
import Mathlib.Algebra.Group.Nat.Defs
import Mathlib.Algebra.GroupWithZero.Nat
import Mathlib.Data.List.Basic

/-!
# The lexer of `front_end_all`

`Lexer.scan` reads `System.in` a byte at a time, one character ahead. The
input is a list of bytes here; once it is used up `read` answers `-1`, which
the cast to `char` makes the character `\uFFFF`, and it goes on doing so. No
byte is that character, so it can stand for the end of the input.

Words are interned: equal lexemes get the same `Word` object. What makes two
`Word`s the same object is their `ref`, the number of entries `words` had
when the object was created. `Num` keeps, next to the `int` the scanner
computes, the number the digits denote; no operation of the program reads
it, it is what a width is to be measured against. A `Real`'s `float` is a
function of the digits and is left as these.
-/

namespace LearningLinux.FrontEnd

/-- Java's `int` arithmetic: the result in `[-2^31, 2^31)`. -/
def wrap (n : Int) : Int := n.bmod (2 ^ 32)

/-! ## Tokens -/

/-- A token with tag `NUM`. -/
structure Num where
  value : Int
  lit : Nat
  value_eq : value = wrap lit
  deriving DecidableEq, Repr

/-- A token with tag `REAL`: the `int` in front of the point and the digits
behind it. -/
structure Real where
  whole : Int
  frac : List Nat
  deriving DecidableEq, Repr

/-- A `Word` object with tag `ID`. -/
structure Word where
  lexeme : List Char
  ref : Nat
  deriving DecidableEq, Repr

/-- The basic types, which are tokens with tag `BASIC`. -/
inductive Basic where
  | int
  | float
  | char
  | bool
  deriving DecidableEq, Repr

inductive Token where
  | chr (c : Char)
  | and
  | or
  | eq
  | ne
  | le
  | ge
  | if
  | else
  | while
  | do
  | break
  | continue
  | true
  | false
  | basic (b : Basic)
  | num (n : Num)
  | real (r : Real)
  | id (w : Word)
  deriving DecidableEq, Repr

/-- `(char) -1`. -/
def eofChar : Char := Char.ofNat 0xFFFF

def Token.eof : Token := .chr eofChar

/-! ## Characters -/

/-- `Character.isDigit`, on the characters a byte or `-1` can be. -/
def isDigit (c : Char) : Bool := '0'.val ≤ c.val && c.val ≤ '9'.val

def digit (c : Char) : Nat := c.toNat - '0'.toNat

/-- `Character.isLetter`, on the characters a byte or `-1` can be. -/
def isLetter (c : Char) : Bool :=
  let n := c.toNat
  (65 ≤ n && n ≤ 90) || (97 ≤ n && n ≤ 122) || n == 0xAA || n == 0xB5 ||
    n == 0xBA || (0xC0 ≤ n && n ≤ 0xFF && n != 0xD7 && n != 0xF7)

/-! ## The lexer's state -/

structure Lexer where
  line : Int32
  peek : Char
  words : List (List Char × Token)
  input : List UInt8

/-- `Lexer()`: the reserved words. -/
def Lexer.new (input : List UInt8) : Lexer where
  line := 1
  peek := ' '
  words := [
    (['i', 'f'], .if),
    (['e', 'l', 's', 'e'], .else),
    (['w', 'h', 'i', 'l', 'e'], .while),
    (['d', 'o'], .do),
    (['b', 'r', 'e', 'a', 'k'], .break),
    (['c', 'o', 'n', 't', 'i', 'n', 'u', 'e'], .continue),
    (['t', 'r', 'u', 'e'], .true),
    (['f', 'a', 'l', 's', 'e'], .false),
    (['i', 'n', 't'], .basic .int),
    (['c', 'h', 'a', 'r'], .basic .char),
    (['b', 'o', 'o', 'l'], .basic .bool),
    (['f', 'l', 'o', 'a', 't'], .basic .float)]
  input := input

/-- `readch()`, on the part of the state it touches. -/
def readch : List UInt8 → Char × List UInt8
  | [] => (eofChar, [])
  | b :: rest => (Char.ofNat b.toNat, rest)

/-- `readch(c)`: whether the next character is `c`, with `peek` after it. -/
def Lexer.readchIs (l : Lexer) (c : Char) : Bool × Lexer :=
  let (p, rest) := readch l.input
  if p ≠ c then (false, { l with peek := p, input := rest })
  else (true, { l with peek := ' ', input := rest })

/-- The loop over blanks, tabs and newlines. -/
def skipBlanks : Int32 → Char → List UInt8 → Int32 × Char × List UInt8
  | line, peek, [] =>
      if peek = ' ' ∨ peek = '\t' then (line, eofChar, [])
      else if peek = '\n' then (line + 1, eofChar, [])
      else (line, peek, [])
  | line, peek, b :: rest =>
      if peek = ' ' ∨ peek = '\t' then
        skipBlanks line (Char.ofNat b.toNat) rest
      else if peek = '\n' then
        skipBlanks (line + 1) (Char.ofNat b.toNat) rest
      else (line, peek, b :: rest)

/-- The number read so far: the `int` and what it should be. -/
def Num.zero : Num := ⟨0, 0, by decide⟩

/-- `v = 10 * v + Character.digit(peek, 10)`. -/
def Num.push (n : Num) (d : Nat) : Num where
  value := wrap (wrap (10 * n.value) + d)
  lit := 10 * n.lit + d
  value_eq := by
    rw [n.value_eq, wrap, wrap, wrap, wrap]
    push_cast
    rw [Int.bmod_add_bmod, ← Int.bmod_add_bmod, Int.mul_bmod_bmod,
      Int.bmod_add_bmod]

/-- The loop over the digits in front of the point. -/
def scanInt : Num → Char → List UInt8 → Num × Char × List UInt8
  | n, peek, [] =>
      if isDigit peek then (n.push (digit peek), eofChar, [])
      else (n, peek, [])
  | n, peek, b :: rest =>
      if isDigit peek then
        scanInt (n.push (digit peek)) (Char.ofNat b.toNat) rest
      else (n, peek, b :: rest)

/-- The loop over the digits behind the point; each iteration reads first. -/
def scanFrac : List Nat → List UInt8 → List Nat × Char × List UInt8
  | ds, [] => (ds, eofChar, [])
  | ds, b :: rest =>
      let p := Char.ofNat b.toNat
      if isDigit p then scanFrac (ds ++ [digit p]) rest else (ds, p, rest)

/-- The loop that collects a word. -/
def scanWord : List Char → Char → List UInt8 →
    List Char × Char × List UInt8
  | s, peek, [] =>
      if isLetter peek || isDigit peek || peek == '_' then
        (s ++ [peek], eofChar, [])
      else (s, peek, [])
  | s, peek, b :: rest =>
      if isLetter peek || isDigit peek || peek == '_' then
        scanWord (s ++ [peek]) (Char.ofNat b.toNat) rest
      else (s, peek, b :: rest)

/-- A character that may start a two-character token: `c` followed by `second`
is `two`, else it stands for itself. -/
def Lexer.scanPair (l : Lexer) (second : Char) (two : Token) :
    Token × Lexer :=
  let (found, l') := l.readchIs second
  if found then (two, l') else (.chr l.peek, l')

def Lexer.scanNumber (l : Lexer) : Token × Lexer :=
  let (n, p, rest) :=
    if l.peek ≠ '.' then scanInt Num.zero l.peek l.input
    else (Num.zero, l.peek, l.input)
  if p ≠ '.' then (.num n, { l with peek := p, input := rest })
  else
    let (ds, p, rest) := scanFrac [] rest
    (.real ⟨n.value, ds⟩, { l with peek := p, input := rest })

def Lexer.scanName (l : Lexer) : Token × Lexer :=
  let (s, p, rest) := scanWord [] l.peek l.input
  let l := { l with peek := p, input := rest }
  match l.words.lookup s with
  | some w => (w, l)
  | none =>
      let w : Token := .id ⟨s, l.words.length⟩
      (w, { l with words := l.words ++ [(s, w)] })

/-- `scan()`. -/
def Lexer.scan (l : Lexer) : Token × Lexer :=
  let (line, p, rest) := skipBlanks l.line l.peek l.input
  let l := { l with line := line, peek := p, input := rest }
  if l.peek = '&' then l.scanPair '&' .and
  else if l.peek = '|' then l.scanPair '|' .or
  else if l.peek = '=' then l.scanPair '=' .eq
  else if l.peek = '!' then l.scanPair '=' .ne
  else if l.peek = '<' then l.scanPair '=' .le
  else if l.peek = '>' then l.scanPair '=' .ge
  else if isDigit l.peek ∨ l.peek = '.' then l.scanNumber
  else if isLetter l.peek ∨ l.peek = '_' then l.scanName
  else (.chr l.peek, { l with peek := ' ' })

/-- The tokens up to the end of the input, which `scan` answers from then
on. -/
def Lexer.tokens : Nat → Lexer → List Token
  | 0, _ => []
  | fuel + 1, l =>
      let (t, l') := l.scan
      if t = Token.eof then [] else t :: Lexer.tokens fuel l'

/-- Every token but the last takes a byte at least. -/
def tokenize (input : List UInt8) : List Token :=
  (Lexer.new input).tokens (input.length + 1)

end LearningLinux.FrontEnd
