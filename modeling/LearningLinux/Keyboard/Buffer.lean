import LearningLinux.Lib.Ring
import LearningLinux.Lib.Threads

/-!
# The keyboard buffer of `io/cursor/kernel/keyboard.c`

`KB_INPUT` with the interrupt handler that fills it and the function that
takes a byte out. `p_head` and `p_tail` are offsets into `buf`. The section
between `disable_int` and `enable_int` is one step, since nothing runs in
between; the interrupt handler is one step as well, with its line masked and
no process switch before it returns.

The reader stands at one of three places: between two calls, in the loop that
waits for a byte, and behind it. An interrupt may come at each of them.

`accepted` and `returned` record the bytes that were stored and the bytes that
were handed out. The program does not have them.
-/

namespace LearningLinux.Keyboard

open LearningLinux.Lib

def KB_IN_BYTES : Nat := 32

/-- `KB_INPUT`. -/
structure KbInput where
  p_head : Nat
  p_tail : Nat
  count : Int
  buf : Nat → UInt8

namespace KbInput

/-- The part of `init_keyboard` that concerns the buffer. -/
def initKeyboard (kb : KbInput) : KbInput :=
  { kb with
    count := 0
    p_head := 0
    p_tail := 0 }

/-- `p++` and the test for the end of `buf`. -/
def advance (p : Nat) : Nat :=
  if p + 1 = KB_IN_BYTES then 0 else p + 1

/-- There is room for another byte. -/
def HasRoom (kb : KbInput) : Prop := kb.count < KB_IN_BYTES

instance (kb : KbInput) : Decidable kb.HasRoom :=
  inferInstanceAs (Decidable (_ < _))

def store (kb : KbInput) (scan_code : UInt8) : KbInput :=
  { kb with
    buf := Function.update kb.buf kb.p_head scan_code
    p_head := advance kb.p_head
    count := kb.count + 1 }

def keyboardHandler (kb : KbInput) (scan_code : UInt8) : KbInput :=
  if kb.HasRoom then kb.store scan_code else kb

/-- `get_byte_from_kbuf` between `disable_int` and `enable_int`. -/
def take (kb : KbInput) : UInt8 × KbInput :=
  (kb.buf kb.p_tail,
    { kb with
      p_tail := advance kb.p_tail
      count := kb.count - 1 })

end KbInput

/-- Where `get_byte_from_kbuf` is. -/
inductive Reader where
  | idle
  | waiting
  | leaving
deriving DecidableEq, Repr

structure State where
  kb_in : KbInput
  reader : Reader
  accepted : List UInt8
  returned : List UInt8

def State.init (kb : KbInput) : State := ⟨kb.initKeyboard, .idle, [], []⟩

/-- A keyboard interrupt with its byte, a call of `get_byte_from_kbuf`, or a
step of the call. -/
inductive Act where
  | interrupt (scan_code : UInt8)
  | call
  | reader
deriving DecidableEq, Repr

def State.interrupt (s : State) (scan_code : UInt8) : State :=
  { s with
    kb_in := s.kb_in.keyboardHandler scan_code
    accepted := if s.kb_in.HasRoom then s.accepted ++ [scan_code]
      else s.accepted }

/-- A step of `get_byte_from_kbuf`. -/
def State.getByte (s : State) : Option State :=
  match s.reader with
  | .idle => none
  -- `while (kb_in.count <= 0) {}`
  | .waiting =>
      some { s with
        reader := if s.kb_in.count ≤ 0 then .waiting else .leaving }
  | .leaving =>
      some { s with
        kb_in := s.kb_in.take.2
        reader := .idle
        returned := s.returned ++ [s.kb_in.take.1] }

def step (s : State) : Act → Option State
  | .interrupt scan_code => some (s.interrupt scan_code)
  | .call =>
      if s.reader = .idle then some { s with
        reader := .waiting } else none
  | .reader => s.getByte

/-! ## The queue in the buffer -/

/-- The bytes `q` are in the buffer, oldest first. -/
structure KbInput.Holds (kb : KbInput) (q : List UInt8) : Prop where
  count : kb.count = q.length
  ring : Ring KB_IN_BYTES kb.buf kb.p_tail kb.p_head q

variable {kb : KbInput} {q : List UInt8} {b : UInt8}

theorem advance_eq {p : Nat} (h : p < KB_IN_BYTES) :
    KbInput.advance p = (p + 1) % KB_IN_BYTES := by
  rw [KbInput.advance]
  split
  · next heq => rw [heq, Nat.mod_self]
  · next hne => rw [Nat.mod_eq_of_lt (by omega)]

theorem holds_init (kb : KbInput) : kb.initKeyboard.Holds [] :=
  ⟨rfl, ring_nil (by decide)⟩

theorem KbInput.Holds.hasRoom (h : kb.Holds q) :
    kb.HasRoom ↔ q.length < KB_IN_BYTES := by
  rw [KbInput.HasRoom, h.count]
  exact Int.ofNat_lt

theorem KbInput.Holds.head_lt (h : kb.Holds q) : kb.p_head < KB_IN_BYTES := by
  rw [h.ring.fill_eq]
  exact Nat.mod_lt _ (by decide)

theorem KbInput.Holds.store (h : kb.Holds q) (hroom : kb.HasRoom) :
    (kb.store b).Holds (q ++ [b]) := by
  have hlt := h.hasRoom.mp hroom
  refine ⟨?_, ?_⟩
  · show kb.count + 1 = _
    rw [h.count, List.length_append]
    rfl
  · show Ring _ _ _ (KbInput.advance kb.p_head) _
    rw [advance_eq h.head_lt]
    exact h.ring.push hlt

theorem KbInput.Holds.take_byte (h : kb.Holds (b :: q)) : kb.take.1 = b :=
  h.ring.head

theorem KbInput.Holds.take_rest (h : kb.Holds (b :: q)) :
    kb.take.2.Holds q := by
  refine ⟨?_, ?_⟩
  · show kb.count - 1 = _
    rw [h.count, List.length_cons]
    omega
  · show Ring _ _ (KbInput.advance kb.p_tail) _ _
    rw [advance_eq h.ring.use_lt]
    exact h.ring.pop

/-! ## Runs -/

/-- What has been accepted is what has been returned and what is unread. -/
structure Inv (s : State) : Prop where
  holds : ∃ q, s.accepted = s.returned ++ q ∧ s.kb_in.Holds q
  some_byte : s.reader = .leaving → 0 < s.kb_in.count

variable {s s' : State}

theorem inv_init (kb : KbInput) : Inv (State.init kb) :=
  ⟨⟨[], rfl, holds_init kb⟩, nofun⟩

theorem Inv.interrupt (h : Inv s) : Inv (s.interrupt b) := by
  obtain ⟨q, hacc, hq⟩ := h.holds
  by_cases hroom : s.kb_in.HasRoom
  · have hkb : (s.interrupt b).kb_in = s.kb_in.store b := if_pos hroom
    have hnew : (s.interrupt b).accepted = s.accepted ++ [b] := if_pos hroom
    refine ⟨⟨q ++ [b], ?_, ?_⟩, ?_⟩
    · rw [hnew, hacc, List.append_assoc]
      rfl
    · rw [hkb]
      exact hq.store hroom
    · intro hleave
      have hpos := h.some_byte hleave
      rw [hkb]
      show 0 < s.kb_in.count + 1
      omega
  · have hkb : (s.interrupt b).kb_in = s.kb_in := if_neg hroom
    have hnew : (s.interrupt b).accepted = s.accepted := if_neg hroom
    refine ⟨⟨q, ?_, ?_⟩, ?_⟩
    · rw [hnew]
      exact hacc
    · rw [hkb]
      exact hq
    · rw [hkb]
      exact h.some_byte

theorem Inv.getByte (h : Inv s) (hs : s.getByte = some s') : Inv s' := by
  rw [State.getByte] at hs
  cases hr : s.reader with
  | idle =>
      simp only [hr] at hs
      cases hs
  | waiting =>
      simp only [hr] at hs
      cases hs
      refine ⟨h.holds, ?_⟩
      intro hleave
      show 0 < s.kb_in.count
      by_contra hpos
      rw [if_pos (by omega)] at hleave
      cases hleave
  | leaving =>
      simp only [hr] at hs
      cases hs
      obtain ⟨q, hacc, hq⟩ := h.holds
      have hpos := h.some_byte hr
      cases q with
      | nil =>
          rw [hq.count] at hpos
          cases hpos
      | cons b q =>
          refine ⟨⟨q, ?_, hq.take_rest⟩, nofun⟩
          show s.accepted = (s.returned ++ [s.kb_in.take.1]) ++ q
          rw [hq.take_byte, hacc, List.append_assoc]
          rfl

theorem Inv.step {a : Act} (h : Inv s) (hs : step s a = some s') :
    Inv s' := by
  cases a with
  | interrupt b =>
      cases hs
      exact h.interrupt
  | call =>
      obtain ⟨-, ⟨⟩⟩ := Option.ite_none_right_eq_some.mp hs
      exact ⟨h.holds, nofun⟩
  | reader => exact h.getByte hs

/-- The bytes that have been accepted and not been returned. -/
def State.unread (s : State) : List UInt8 :=
  s.accepted.drop s.returned.length

/-- The buffer is a queue. -/
structure Fifo (s : State) : Prop where
  returned : s.returned <+: s.accepted
  count : s.kb_in.count = s.unread.length
  head_lt : s.kb_in.p_head < KB_IN_BYTES
  tail_lt : s.kb_in.p_tail < KB_IN_BYTES
  head_eq : (s.kb_in.p_head : Int) =
    (s.kb_in.p_tail + s.kb_in.count) % KB_IN_BYTES
  /-- A byte is discarded only when the buffer is full of unread bytes. -/
  discards : ∀ b, (s.interrupt b).accepted = s.accepted ++ [b] ∨
    (s.interrupt b).accepted = s.accepted ∧ s.unread.length = KB_IN_BYTES

theorem Inv.fifo (h : Inv s) : Fifo s := by
  obtain ⟨q, hacc, hq⟩ := h.holds
  have hunread : s.unread = q := by
    rw [State.unread, hacc, List.drop_left]
  refine ⟨?_, ?_, hq.head_lt, hq.ring.use_lt, ?_, ?_⟩
  · rw [hacc]
    exact List.prefix_append _ _
  · rw [hunread]
    exact hq.count
  · rw [hq.count, hq.ring.fill_eq]
    rfl
  · intro b
    by_cases hroom : s.kb_in.HasRoom
    · exact Or.inl (if_pos hroom)
    · refine Or.inr ⟨if_neg hroom, ?_⟩
      have hfull := mt hq.hasRoom.mpr hroom
      have hfits := hq.ring.fits
      rw [hunread]
      omega

/-- However the interrupts and the steps of the reader alternate, the buffer
is a queue. -/
theorem keyboard_fifo {kb : KbInput} {acts : List Act}
    (hrun : exec step (State.init kb) acts = some s) : Fifo s :=
  (exec_inv (fun _ _ _ h hs => h.step hs) (inv_init kb) hrun).fifo

/-- Two bytes arrive, the second while the first is being waited for. -/
def twoBytes : List Act :=
  [.call, .reader, .interrupt 0x1E, .reader, .interrupt 0x9E, .reader]

theorem keyboard_fifo_two : ∃ s,
    exec step (State.init ⟨7, 9, 3, fun _ => 0⟩) twoBytes = some s ∧
      s.returned = [0x1E] ∧ s.unread = [0x9E] ∧ Fifo s := by
  have hrun : (exec step (State.init ⟨7, 9, 3, fun _ => 0⟩) twoBytes).map
      (fun s => (s.returned, s.unread)) = some ([0x1E], [0x9E]) := by
    decide +kernel
  obtain ⟨s, hs, hres⟩ := Option.map_eq_some_iff.mp hrun
  simp only [Prod.mk.injEq] at hres
  exact ⟨s, hs, hres.1, hres.2, keyboard_fifo hs⟩

end LearningLinux.Keyboard
