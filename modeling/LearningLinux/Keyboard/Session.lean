import LearningLinux.Keyboard.Modifiers
import LearningLinux.Lib.Iteratee

/-!
# `keyboard_read` under interrupts

A call of `keyboard_read` does not have its bytes at once: it may find that
the buffer is empty after any of them, and waits in `get_byte_from_kbuf` while
the keyboard interrupt goes on filling the buffer. `decode` is therefore
written down again as a computation that asks for its bytes; run on the buffer
it is `decode`.

The task calls `keyboard_read` over and over. A call that finds nothing in the
buffer returns, and leaves no trace in `calls`.
-/

namespace LearningLinux.Keyboard

open LearningLinux.Lib

/-! ## The decoder -/

abbrev Reading := Iteratee UInt8

namespace Reading

def isPausebreak : List UInt8 → Reading Bool
  | [] => pure true
  | c :: pausebrk_scode => do
      if (← Iteratee.get) ≠ c then pure false
      else isPausebreak pausebrk_scode

def followedBy (c : UInt8) : Reading Bool := do
  if (← Iteratee.get) = 0xE0 then pure ((← Iteratee.get) = c)
  else pure false

def printScreen (scan_code : UInt8) : Reading UInt32 := do
  let key ← if scan_code = 0x2A then do
      if ← followedBy 0x37 then pure PRINTSCREEN else pure 0
    else pure 0
  if scan_code = 0xB7 then do
    if ← followedBy 0xAA then pure PRINTSCREEN else pure key
  else pure key

/-- What is left of `keyboard_read` behind the test of the count. The answer
is what it does to the static variables. -/
def decode : Reading (Kbd → Kbd) := do
  let scan_code ← Iteratee.get
  if scan_code = 0xE1 then do
    if ← isPausebreak [0x1D, 0x45, 0xE1, 0x9D, 0xC5] then pure id
    else pure fun k => k.translate scan_code
  else if scan_code = 0xE0 then do
    let scan_code ← Iteratee.get
    let key ← printScreen scan_code
    if key = PRINTSCREEN then pure id
    else pure fun k => (k.setE0 1).translate scan_code
  else pure fun k => k.translate scan_code

theorem run_isPausebreak : ∀ bytes,
    (isPausebreak bytes).run getByteFromKbuf = Keyboard.isPausebreak bytes := by
  intro bytes
  induction bytes with
  | nil => rfl
  | cons c bytes ih =>
      simp only [isPausebreak, Keyboard.isPausebreak, Iteratee.run_bind,
        Iteratee.run_get, Iteratee.run_ite, Iteratee.run_pure, ih]

theorem run_followedBy (c : UInt8) :
    (followedBy c).run getByteFromKbuf = Keyboard.followedBy c := by
  simp only [followedBy, Keyboard.followedBy, Iteratee.run_bind,
    Iteratee.run_get, Iteratee.run_ite, Iteratee.run_pure]

theorem run_printScreen (scan_code : UInt8) :
    (printScreen scan_code).run getByteFromKbuf =
      Keyboard.printScreen scan_code := by
  simp only [printScreen, Keyboard.printScreen, Iteratee.run_bind,
    Iteratee.run_ite, Iteratee.run_pure, run_followedBy]

/-- On a buffer that has the bytes, the two decoders do the same. -/
theorem run_decode :
    (decode.run getByteFromKbuf >>= fun f => modify f) = Keyboard.decode := by
  simp only [decode, Keyboard.decode, Iteratee.run_bind, Iteratee.run_get,
    Iteratee.run_ite, Iteratee.run_pure, run_isPausebreak, run_printScreen,
    bind_assoc]
  refine bind_congr fun scan_code => ?_
  split
  · rw [bind_assoc]
    refine bind_congr fun b => ?_
    cases b <;> rfl
  · split
    · simp only [bind_assoc]
      refine bind_congr fun scan_code => bind_congr fun key => ?_
      split <;> rfl
    · rfl

end Reading

/-! ## The task -/

/-- Where the task is: between two calls of `keyboard_read`, or in
`get_byte_from_kbuf`, in its loop or behind it, with the rest of the call to
come. -/
inductive Place where
  | idle
  | waiting (next : UInt8 → Reading (Kbd → Kbd))
  | leaving (next : UInt8 → Reading (Kbd → Kbd))

/-- A call that has returned: the bytes it took and the arguments of
`in_process`. -/
structure Call where
  bytes : List UInt8
  keys : List UInt32
deriving DecidableEq, Repr

/-- `accepted` are the bytes that were stored, `got` those the present call
has taken. -/
structure Session where
  kbd : Kbd
  place : Place
  accepted : List UInt8
  got : List UInt8
  calls : List Call

def Session.init (k : Kbd) : Session := ⟨initKeyboard k, .idle, [], [], []⟩

/-- A keyboard interrupt with its byte, or a step of the task. -/
inductive Move where
  | interrupt (scan_code : UInt8)
  | task
deriving DecidableEq, Repr

namespace Session

def interrupt (s : Session) (scan_code : UInt8) : Session :=
  { s with
    kbd := s.kbd.setKbIn (s.kbd.kb_in.keyboardHandler scan_code)
    accepted := if s.kbd.kb_in.HasRoom then s.accepted ++ [scan_code]
      else s.accepted }

/-- The call goes on to its next byte, or to its end. -/
def goOn (s : Session) : Reading (Kbd → Kbd) → Session
  | .done f => { s with
      kbd := f s.kbd
      place := .idle
      got := []
      calls := s.calls ++ [⟨s.got, (f s.kbd).processed⟩] }
  | .ask next => { s with
      place := .waiting next }

/-- `keyboard_read` behind the test of the count. -/
def enter (s : Session) : Session :=
  goOn { s with
    kbd := { s.kbd.setE0 0 with
      processed := [] } } Reading.decode

/-- `get_byte_from_kbuf` behind its loop. -/
def takeByte (s : Session) (next : UInt8 → Reading (Kbd → Kbd)) : Session :=
  goOn { s with
    kbd := s.kbd.setKbIn s.kbd.kb_in.take.2
    got := s.got ++ [s.kbd.kb_in.take.1] } (next s.kbd.kb_in.take.1)

def task (s : Session) : Session :=
  match s.place with
  | .idle => if s.kbd.kb_in.count > 0 then s.enter else s
  | .waiting next => { s with
      place := if s.kbd.kb_in.count ≤ 0 then .waiting next
        else .leaving next }
  | .leaving next => s.takeByte next

def move (s : Session) : Move → Option Session
  | .interrupt scan_code => some (s.interrupt scan_code)
  | .task => some s.task

end Session

end LearningLinux.Keyboard
