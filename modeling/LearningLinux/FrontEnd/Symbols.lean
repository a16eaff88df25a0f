import LearningLinux.FrontEnd.Lexer

/-!
# Types, identifiers and scopes

The package `symbols`, with `Id` of `inter`. A `null` type is `none`; a
`Type` object is compared by reference, and the only types ever compared so
are the four basic ones, whose objects are unique.
-/

namespace LearningLinux.FrontEnd

/-! ## `Type` and `Array` -/

inductive Ty where
  | basic (b : Basic)
  | array (size : Num) (of : Ty)
  deriving DecidableEq, Repr

namespace Ty

abbrev int : Ty := .basic .int
abbrev float : Ty := .basic .float
abbrev char : Ty := .basic .char
abbrev bool : Ty := .basic .bool

end Ty

def Basic.width : Basic → Nat
  | .int => 4
  | .float => 8
  | .char => 1
  | .bool => 1

/-- The field `width`, computed in `int`s. -/
def Ty.width : Ty → Int
  | .basic b => b.width
  | .array size of => wrap (size.value * of.width)

def Ty.isArray : Ty → Bool
  | .basic _ => false
  | .array _ _ => true

/-- `Type.numeric`. -/
def Ty.numeric : Option Ty → Bool
  | some (.basic .char) => true
  | some (.basic .int) => true
  | some (.basic .float) => true
  | _ => false

/-- `Type.max`. -/
def Ty.max (p1 p2 : Option Ty) : Option Ty :=
  if ¬ Ty.numeric p1 ∨ ¬ Ty.numeric p2 then none
  else if p1 = some .float ∨ p2 = some .float then some .float
  else if p1 = some .int ∨ p2 = some .int then some .int
  else some .char

/-! ## `Id` and `Env` -/

structure Id where
  word : Word
  type : Ty
  offset : Int
  key : Nat
  deriving DecidableEq, Repr

/-- A `Hashtable` from `Word` objects to `Id`s. -/
def Table : Type := List (Nat × Id)

def Table.get (t : Table) (w : Word) : Option Id := List.lookup w.ref t

def Table.put (t : Table) (w : Word) (i : Id) : Table := (w.ref, i) :: t

/-- An `Env` with the chain of its `prev`s, the innermost first. -/
def Env : Type := List Table

def Env.get : Env → Word → Option Id
  | [], _ => none
  | t :: prev, w => (t.get w).or (Env.get prev w)

end LearningLinux.FrontEnd
