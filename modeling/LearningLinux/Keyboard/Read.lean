import LearningLinux.Keyboard.Buffer
import LearningLinux.Keyboard.Keymap

/-!
# `keyboard_read`

The decoder of `keyboard.c`: one call takes the bytes of one key off the
buffer, looks the key up and passes it on. A call that finds the buffer empty
in the middle of a sequence waits, for ever if no interrupt comes; that is
`none` here.

`processed` records the arguments of `in_process`.
-/

namespace LearningLinux.Keyboard

/-- The static variables of `keyboard.c`. -/
structure Kbd where
  kb_in : KbInput
  code_with_E0 : Int
  shift_l : Int
  shift_r : Int
  alt_l : Int
  alt_r : Int
  ctrl_l : Int
  ctrl_r : Int
  column : Nat
  processed : List UInt32

def initKeyboard (k : Kbd) : Kbd :=
  { k with
    kb_in := k.kb_in.initKeyboard
    shift_l := 0
    shift_r := 0
    alt_l := 0
    alt_r := 0
    ctrl_l := 0
    ctrl_r := 0
    processed := [] }

def Kbd.setKbIn (k : Kbd) (kb : KbInput) : Kbd :=
  { k with
    kb_in := kb }

def Kbd.setE0 (k : Kbd) (code_with_E0 : Int) : Kbd :=
  { k with
    code_with_E0 := code_with_E0 }

abbrev Read := StateT Kbd Option

def getByteFromKbuf : Read UInt8 := fun k =>
  if k.kb_in.count ≤ 0 then none
  else some (k.kb_in.take.1, k.setKbIn k.kb_in.take.2)

/-- The loop that compares with `pausebrk_scode`. -/
def isPausebreak : List UInt8 → Read Bool
  | [] => pure true
  | c :: pausebrk_scode => do
      if (← getByteFromKbuf) ≠ c then pure false
      else isPausebreak pausebrk_scode

/-- The two tests for the second half of a PrintScreen sequence. -/
def followedBy (c : UInt8) : Read Bool := do
  if (← getByteFromKbuf) = 0xE0 then pure ((← getByteFromKbuf) = c)
  else pure false

/-- The key of a sequence that starts with `E0` and `scan_code`, if it is
PrintScreen. -/
def printScreen (scan_code : UInt8) : Read UInt32 := do
  let key ← if scan_code = 0x2A then do
      if ← followedBy 0x37 then pure PRINTSCREEN else pure 0
    else pure 0
  if scan_code = 0xB7 then do
    if ← followedBy 0xAA then pure PRINTSCREEN else pure key
  else pure key

/-- `switch (key)`. The right Alt key sets the variable of the left one. -/
def Kbd.track (k : Kbd) (key : UInt32) (make : Int) : Kbd :=
  if key = SHIFT_L then { k with
    shift_l := make }
  else if key = SHIFT_R then { k with
    shift_r := make }
  else if key = CTRL_L then { k with
    ctrl_l := make }
  else if key = CTRL_R then { k with
    ctrl_r := make }
  else if key = ALT_L then { k with
    alt_l := make }
  else if key = ALT_R then { k with
    alt_l := make }
  else k

/-- `key |= v ? flag : 0` -/
def flagIf (v : Int) (flag : UInt32) : UInt32 :=
  if v ≠ 0 then flag else 0

def Kbd.flags (k : Kbd) (key : UInt32) : UInt32 :=
  key ||| flagIf k.shift_l FLAG_SHIFT_L ||| flagIf k.shift_r FLAG_SHIFT_R |||
    flagIf k.ctrl_l FLAG_CTRL_L ||| flagIf k.ctrl_r FLAG_CTRL_R |||
    flagIf k.alt_l FLAG_ALT_L ||| flagIf k.alt_r FLAG_ALT_R

def inProcess (k : Kbd) (key : UInt32) : Kbd :=
  { k with
    processed := k.processed ++ [key] }

/-- The column for the present state of the shift keys and of the prefix. -/
def Kbd.pickColumn (k : Kbd) : Nat :=
  if k.code_with_E0 ≠ 0 then 2
  else if k.shift_l ≠ 0 ∨ k.shift_r ≠ 0 then 1
  else 0

/-- `1` for a make code, `0` for a break code. -/
def makeOf (scan_code : UInt8) : Int :=
  if scan_code &&& FLAG_BREAK ≠ 0 then 0 else 1

def keyAt (scan_code : UInt8) (column : Nat) : UInt32 :=
  keymap.getD ((scan_code &&& 0x7F).toNat * MAP_COLS + column) 0

/-- What a scan code other than PrintScreen and Pause does. -/
def Kbd.translate (k : Kbd) (scan_code : UInt8) : Kbd :=
  let make := makeOf scan_code
  let column := k.pickColumn
  let key := keyAt scan_code column
  let k := { k with
    column := column
    code_with_E0 := if column = 2 then 0 else k.code_with_E0 }
  let k := k.track key make
  if make ≠ 0 then inProcess k (k.flags key) else k

/-- The body of `keyboard_read`, behind the test of the count. -/
def decode : Read Unit := do
  let scan_code ← getByteFromKbuf
  if scan_code = 0xE1 then do
    if ← isPausebreak [0x1D, 0x45, 0xE1, 0x9D, 0xC5] then pure ()
    else modify fun k => k.translate scan_code
  else if scan_code = 0xE0 then do
    let scan_code ← getByteFromKbuf
    let key ← printScreen scan_code
    if key = PRINTSCREEN then pure ()
    else modify fun k => (k.setE0 1).translate scan_code
  else modify fun k => k.translate scan_code

def keyboardRead : Read Unit := fun k =>
  if k.kb_in.count > 0 then decode (k.setE0 0) else some ((), k)

end LearningLinux.Keyboard
