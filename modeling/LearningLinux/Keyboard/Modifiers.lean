import LearningLinux.Keyboard.Read
import LearningLinux.Lib.Threads

/-!
# The modifiers and the keys held down

The keyboard sends the bytes of scan code set 1, as the appendix of `keymap.h`
lists them; the driver decodes them event by event. What should come out is
that each of the six variables says whether its key is held down, and that
`in_process` is told so with every key.

It does, up to one line: the case of the right Alt key assigns to `alt_l`. The
main result says which sequences of events are not affected.
-/

namespace LearningLinux.Keyboard

open LearningLinux.Lib

/-! ## Scan code set 1 -/

/-- A key, by the make code the appendix gives for it: one byte, one byte
after `E0`, or one of the two long sequences. -/
inductive Key where
  | plain (code : UInt8)
  | ext (code : UInt8)
  | printScreen
  | pause
deriving DecidableEq, Repr

/-- The make codes of one byte, down the columns of the appendix. -/
def plainCodes : List UInt8 :=
  [ 0x1E, 0x30, 0x2E, 0x20, 0x12, 0x21, 0x22, 0x23, 0x17, 0x24, 0x25, 0x26,
    0x32, 0x31, 0x18, 0x19, 0x10, 0x13, 0x1F, 0x14, 0x16, 0x2F, 0x11, 0x2D,
    0x15, 0x2C, 0x0B, 0x02, 0x03, 0x04, 0x05, 0x06, 0x07, 0x08, 0x09, 0x0A,
    0x29, 0x0C, 0x0D, 0x2B, 0x0E, 0x39, 0x0F, 0x3A, 0x2A, 0x1D, 0x38, 0x36,
    0x1C, 0x01, 0x3B, 0x3C, 0x3D, 0x3E, 0x3F, 0x40, 0x41, 0x42, 0x43, 0x44,
    0x57, 0x58, 0x46, 0x1A, 0x45, 0x37, 0x4A, 0x4E, 0x53, 0x52, 0x4F, 0x50,
    0x51, 0x4B, 0x4C, 0x4D, 0x47, 0x48, 0x49, 0x1B, 0x27, 0x28, 0x33, 0x34,
    0x35 ]

/-- The make codes after `E0`. -/
def extCodes : List UInt8 :=
  [ 0x5B, 0x1D, 0x5C, 0x38, 0x5D, 0x52, 0x47, 0x49, 0x53, 0x4F, 0x51, 0x48,
    0x4B, 0x50, 0x4D, 0x35, 0x1C ]

def Key.listed : Key → Bool
  | .plain code => code ∈ plainCodes
  | .ext code => code ∈ extCodes
  | .printScreen => true
  | .pause => true

/-- A key of the appendix goes down or up. -/
structure Event where
  key : Key
  press : Bool
  listed : key.listed = true

/-- The bytes of an event. Pause has no break code. -/
def Key.bytes : Key → Bool → List UInt8
  | .plain code, true => [code]
  | .plain code, false => [code ||| 0x80]
  | .ext code, true => [0xE0, code]
  | .ext code, false => [0xE0, code ||| 0x80]
  | .printScreen, true => [0xE0, 0x2A, 0xE0, 0x37]
  | .printScreen, false => [0xE0, 0xB7, 0xE0, 0xAA]
  | .pause, true => [0xE1, 0x1D, 0x45, 0xE1, 0x9D, 0xC5]
  | .pause, false => []

inductive Modifier where
  | shiftL
  | shiftR
  | ctrlL
  | ctrlR
  | altL
  | altR
deriving DecidableEq, Repr

/-- The modifier keys of the appendix. -/
def Key.modifier : Key → Option Modifier
  | .plain 0x2A => some .shiftL
  | .plain 0x36 => some .shiftR
  | .plain 0x1D => some .ctrlL
  | .ext 0x1D => some .ctrlR
  | .plain 0x38 => some .altL
  | .ext 0x38 => some .altR
  | _ => none

def Modifier.flag : Modifier → UInt32
  | .shiftL => FLAG_SHIFT_L
  | .shiftR => FLAG_SHIFT_R
  | .ctrlL => FLAG_CTRL_L
  | .ctrlR => FLAG_CTRL_R
  | .altL => FLAG_ALT_L
  | .altR => FLAG_ALT_R

/-- The variable of a modifier. -/
def Kbd.var (k : Kbd) : Modifier → Int
  | .shiftL => k.shift_l
  | .shiftR => k.shift_r
  | .ctrlL => k.ctrl_l
  | .ctrlR => k.ctrl_r
  | .altL => k.alt_l
  | .altR => k.alt_r

/-! ## Runs -/

/-- The driver and the modifier keys that are really down. -/
structure Typing where
  kbd : Kbd
  held : Modifier → Bool

def Typing.init (k : Kbd) : Typing := ⟨initKeyboard k, fun _ => false⟩

/-- The interrupts for a sequence of bytes. -/
def Kbd.deliver (k : Kbd) (bytes : List UInt8) : Kbd :=
  { k with
    kb_in := bytes.foldl KbInput.keyboardHandler k.kb_in }

/-- The loop of `task_tty`, so many times. -/
def keyboardReads : Nat → Read Unit
  | 0 => pure ()
  | n + 1 => do
      keyboardRead
      keyboardReads n

/-- The keys down after an event. -/
def Event.apply (e : Event) (held : Modifier → Bool) : Modifier → Bool :=
  fun m => if e.key.modifier = some m then e.press else held m

/-- One event: its bytes arrive, and `keyboard_read` is called often enough to
empty the buffer. What `in_process` gets is noted for each event anew. -/
def typed (s : Typing) (e : Event) : Option Typing :=
  (keyboardReads KB_IN_BYTES ({ s.kbd with
    processed := [] }.deliver (e.key.bytes e.press))).map
    fun r => ⟨r.2, e.apply s.held⟩

/-- The variables tell which keys are down, and so do the flags of the keys
that went to `in_process`. -/
structure Tracks (s : Typing) : Prop where
  var : ∀ m, s.kbd.var m ≠ 0 ↔ s.held m = true
  flags : ∀ key ∈ s.kbd.processed, ∀ m, key &&& m.flag ≠ 0 ↔ s.held m = true

/-- The right Alt key is not pressed, nor released while the left one is
down. -/
def SparesAltR (s : Typing) (e : Event) : Prop :=
  e.key.modifier = some .altR → e.press = false ∧ s.held .altL = false

/-! ## Reading bytes -/

variable {k : Kbd} {q : List UInt8} {b c : UInt8}

theorem KbInput.Holds.deliver {kb : KbInput} (h : kb.Holds q)
    (bytes : List UInt8) (hfits : q.length + bytes.length ≤ KB_IN_BYTES) :
    (bytes.foldl KbInput.keyboardHandler kb).Holds (q ++ bytes) := by
  induction bytes generalizing kb q with
  | nil =>
      rw [List.append_nil]
      exact h
  | cons b bytes ih =>
      rw [List.length_cons] at hfits
      have hroom : kb.HasRoom := h.hasRoom.mpr (by omega)
      have hstored : (kb.keyboardHandler b).Holds (q ++ [b]) := by
        rw [KbInput.keyboardHandler, if_pos hroom]
        exact h.store hroom
      have hrest := ih hstored (by
        rw [List.length_append, List.length_singleton]
        omega)
      rw [List.append_assoc] at hrest
      exact hrest

theorem getByte_run (h : k.kb_in.Holds (b :: q)) :
    getByteFromKbuf k = some (b, k.setKbIn k.kb_in.take.2) := by
  have hpos : ¬ k.kb_in.count ≤ 0 := by
    rw [h.count, List.length_cons]
    omega
  rw [getByteFromKbuf, if_neg hpos, h.take_byte]

/-- A byte is read, and the rest goes on behind it. -/
theorem getByte_bind (h : k.kb_in.Holds (b :: q)) :
    ∃ kb : KbInput, kb.Holds q ∧ ∀ {α : Type} (f : UInt8 → Read α),
      (getByteFromKbuf >>= f) k = f b (k.setKbIn kb) := by
  refine ⟨_, h.take_rest, ?_⟩
  intro α f
  show (getByteFromKbuf k >>= fun r => f r.1 r.2) = _
  rw [getByte_run h]
  rfl

theorem keyboardRead_empty (h : k.kb_in.Holds []) :
    keyboardRead k = some ((), k) := by
  rw [keyboardRead, if_neg]
  rw [h.count]
  decide

theorem keyboardReads_empty (h : k.kb_in.Holds []) : ∀ n,
    keyboardReads n k = some ((), k) := by
  intro n
  induction n with
  | zero => rfl
  | succ n ih =>
      show (keyboardRead k >>= fun r => keyboardReads n r.2) = _
      rw [keyboardRead_empty h]
      exact ih

/-- One call that empties the buffer is as good as many. -/
theorem keyboardReads_one {k' : Kbd} (h : keyboardRead k = some ((), k'))
    (hempty : k'.kb_in.Holds []) (n : Nat) :
    keyboardReads (n + 1) k = some ((), k') := by
  show (keyboardRead k >>= fun r => keyboardReads n r.2) = _
  rw [h]
  exact keyboardReads_empty hempty n

/-! ## The sequences of the appendix -/

theorem keyboardRead_decode (h : k.kb_in.Holds (b :: q)) :
    keyboardRead k = decode (k.setE0 0) := by
  rw [keyboardRead, if_pos]
  rw [h.count, List.length_cons]
  omega

theorem read_plain (h : k.kb_in.Holds [c]) (hE1 : c ≠ 0xE1)
    (hE0 : c ≠ 0xE0) : ∃ kb : KbInput, kb.Holds [] ∧
      keyboardRead k = some ((), ((k.setE0 0).setKbIn kb).translate c) := by
  obtain ⟨kb, hkb, hget⟩ := getByte_bind (k := k.setE0 0) h
  refine ⟨kb, hkb, ?_⟩
  rw [keyboardRead_decode h, decode, hget, if_neg hE1, if_neg hE0]
  rfl

theorem printScreen_other (hmake : c ≠ 0x2A) (hbreak : c ≠ 0xB7) :
    printScreen c k = some (0, k) := by
  unfold printScreen
  rw [if_neg hmake]
  show (if c = 0xB7 then _ else pure (0 : UInt32) : Read UInt32) k = _
  rw [if_neg hbreak]
  rfl

theorem read_ext (h : k.kb_in.Holds [0xE0, c]) (hmake : c ≠ 0x2A)
    (hbreak : c ≠ 0xB7) : ∃ kb : KbInput, kb.Holds [] ∧
      keyboardRead k = some ((), ((k.setE0 1).setKbIn kb).translate c) := by
  obtain ⟨kb₁, hkb₁, hget₁⟩ := getByte_bind (k := k.setE0 0) h
  obtain ⟨kb, hkb, hget⟩ := getByte_bind (k := (k.setE0 0).setKbIn kb₁) hkb₁
  refine ⟨kb, hkb, ?_⟩
  rw [keyboardRead_decode h, decode, hget₁, if_neg (by decide), if_pos rfl,
    hget]
  show (printScreen c (((k.setE0 0).setKbIn kb₁).setKbIn kb) >>= fun r => _) = _
  rw [printScreen_other hmake hbreak]
  rfl

theorem followedBy_run (h : k.kb_in.Holds [0xE0, c]) :
    ∃ kb : KbInput, kb.Holds [] ∧
      followedBy c k = some (true, k.setKbIn kb) := by
  obtain ⟨kb₁, hkb₁, hget₁⟩ := getByte_bind h
  obtain ⟨kb, hkb, hget⟩ := getByte_bind (k := k.setKbIn kb₁) hkb₁
  refine ⟨kb, hkb, ?_⟩
  rw [followedBy, hget₁, if_pos rfl, hget, decide_eq_true rfl]
  rfl

/-- The two sequences of PrintScreen. -/
theorem printScreen_run {second : UInt8}
    (h : k.kb_in.Holds [0xE0, second])
    (hc : c = 0x2A ∧ second = 0x37 ∨ c = 0xB7 ∧ second = 0xAA) :
    ∃ kb : KbInput, kb.Holds [] ∧
      printScreen c k = some (PRINTSCREEN, k.setKbIn kb) := by
  obtain ⟨kb, hkb, hrun⟩ := followedBy_run h
  refine ⟨kb, hkb, ?_⟩
  rcases hc with ⟨rfl, rfl⟩ | ⟨rfl, rfl⟩
  · unfold printScreen
    rw [if_pos rfl]
    show (followedBy 0x37 k >>= fun r => _) = _
    rw [hrun]
    rfl
  · unfold printScreen
    rw [if_neg (by decide)]
    show (followedBy 0xAA k >>= fun r => _) = _
    rw [hrun]
    rfl

theorem read_printScreen {second : UInt8}
    (h : k.kb_in.Holds [0xE0, c, 0xE0, second])
    (hc : c = 0x2A ∧ second = 0x37 ∨ c = 0xB7 ∧ second = 0xAA) :
    ∃ kb : KbInput, kb.Holds [] ∧
      keyboardRead k = some ((), (k.setE0 0).setKbIn kb) := by
  obtain ⟨kb₁, hkb₁, hget₁⟩ := getByte_bind (k := k.setE0 0) h
  obtain ⟨kb₂, hkb₂, hget₂⟩ := getByte_bind (k := (k.setE0 0).setKbIn kb₁) hkb₁
  obtain ⟨kb, hkb, hrun⟩ :=
    printScreen_run (k := (k.setE0 0).setKbIn kb₂) hkb₂ hc
  refine ⟨kb, hkb, ?_⟩
  rw [keyboardRead_decode h, decode, hget₁, if_neg (by decide), if_pos rfl,
    hget₂]
  show (printScreen c ((k.setE0 0).setKbIn kb₂) >>= fun r => _) = _
  rw [hrun]
  rfl

theorem isPausebreak_run : ∀ {bytes : List UInt8} {k : Kbd},
    k.kb_in.Holds bytes → ∃ kb : KbInput, kb.Holds [] ∧
      isPausebreak bytes k = some (true, k.setKbIn kb) := by
  intro bytes
  induction bytes with
  | nil => intro k h; exact ⟨k.kb_in, h, rfl⟩
  | cons b bytes ih =>
      intro k h
      obtain ⟨kb₁, hkb₁, hget⟩ := getByte_bind h
      obtain ⟨kb, hkb, hrun⟩ := ih (k := k.setKbIn kb₁) hkb₁
      refine ⟨kb, hkb, ?_⟩
      rw [isPausebreak, hget, if_neg (not_not.mpr rfl), hrun]
      rfl

theorem read_pause
    (h : k.kb_in.Holds [0xE1, 0x1D, 0x45, 0xE1, 0x9D, 0xC5]) :
    ∃ kb : KbInput, kb.Holds [] ∧
      keyboardRead k = some ((), (k.setE0 0).setKbIn kb) := by
  obtain ⟨kb₁, hkb₁, hget⟩ := getByte_bind (k := k.setE0 0) h
  obtain ⟨kb, hkb, hrun⟩ :=
    isPausebreak_run (k := (k.setE0 0).setKbIn kb₁) hkb₁
  refine ⟨kb, hkb, ?_⟩
  rw [keyboardRead_decode h, decode, hget, if_pos rfl]
  show (isPausebreak _ ((k.setE0 0).setKbIn kb₁) >>= fun r => _) = _
  rw [hrun]
  rfl

/-! ## The table -/

def Modifier.all : List Modifier :=
  [.shiftL, .shiftR, .ctrlL, .ctrlR, .altL, .altR]

theorem Modifier.mem_all (m : Modifier) : m ∈ Modifier.all := by
  cases m <;> decide

/-- The key value of a modifier. -/
def Modifier.key : Modifier → UInt32
  | .shiftL => SHIFT_L
  | .shiftR => SHIFT_R
  | .ctrlL => CTRL_L
  | .ctrlR => CTRL_R
  | .altL => ALT_L
  | .altR => ALT_R

/-- The last byte of an event, for a key with a make code of one byte or of
one byte after `E0`. -/
def lastByte (code : UInt8) (press : Bool) : UInt8 :=
  if press then code else code ||| 0x80

/-- In this column the scan code is that of the key, and has no flags of its
own. -/
structure Encodes (scan_code : UInt8) (column : Nat) (key : Key)
    (press : Bool) : Prop where
  make : makeOf scan_code = if press then 1 else 0
  modifier : ∀ m : Modifier,
    keyAt scan_code column = m.key ↔ key.modifier = some m
  no_flag : ∀ m : Modifier, keyAt scan_code column &&& m.flag = 0

/-- A property of the codes of a list, checked code by code. -/
theorem forall_mem_of_all {codes : List UInt8} {p : UInt8 → Prop}
    [DecidablePred p] (h : codes.all p = true) : ∀ code ∈ codes, p code :=
  fun code hcode => of_decide_eq_true (List.all_eq_true.mp h code hcode)

/-- The entry in a column of a row. -/
def ofRow (row : UInt32 × UInt32 × UInt32) (column : Nat) : UInt32 :=
  [row.1, row.2.1, row.2.2].getD column 0

theorem getD_rows {column : Nat} (hcol : column < MAP_COLS)
    (rows : List (UInt32 × UInt32 × UInt32)) (r : Nat) :
    (rows.flatMap fun row => [row.1, row.2.1, row.2.2]).getD
        (r * MAP_COLS + column) 0 = ofRow (rows.getD r (0, 0, 0)) column := by
  induction rows generalizing r with
  | nil =>
      match column, hcol with
      | 0, _ => rfl
      | 1, _ => rfl
      | 2, _ => rfl
  | cons row rows ih =>
      cases r with
      | zero =>
          match column, hcol with
          | 0, _ => rfl
          | 1, _ => rfl
          | 2, _ => rfl
      | succ r =>
          rw [Nat.succ_mul, Nat.add_right_comm]
          exact ih r

/-- The table, read by rows: a press and a release have the same. -/
theorem keyAt_row (code : UInt8) (press : Bool) {column : Nat}
    (hcol : column < MAP_COLS) :
    keyAt (lastByte code press) column =
      ofRow (keyrows.getD (code &&& 0x7F).toNat (0, 0, 0)) column := by
  have hrow : lastByte code press &&& 0x7F = code &&& 0x7F := by
    cases press with
    | true => rfl
    | false =>
        apply UInt8.toBitVec_inj.mp
        simp [lastByte, BitVec.and_or_distrib_right]
  rw [keyAt, hrow]
  exact getD_rows hcol keyrows _

theorem plain_encodes {code : UInt8} (h : code ∈ plainCodes) (press : Bool)
    {column : Nat} (hcol : column ∈ [0, 1]) :
    Encodes (lastByte code press) column (.plain code) press := by
  have hmake : ∀ code ∈ plainCodes, ∀ press,
      makeOf (lastByte code press) = if press then 1 else 0 := by
    exact forall_mem_of_all (by decide +kernel)
  have htable : ∀ code ∈ plainCodes, ∀ column ∈ [0, 1], ∀ m ∈ Modifier.all,
      (ofRow (keyrows.getD (code &&& 0x7F).toNat (0, 0, 0)) column = m.key ↔
        (Key.plain code).modifier = some m) ∧
      ofRow (keyrows.getD (code &&& 0x7F).toNat (0, 0, 0)) column &&&
        m.flag = 0 := by
    exact forall_mem_of_all (by decide +kernel)
  have hlt : column < MAP_COLS := by
    rcases List.mem_pair.mp hcol with rfl | rfl <;> decide
  refine ⟨hmake code h press, fun m => ?_, fun m => ?_⟩
  · rw [keyAt_row code press hlt]
    exact (htable code h column hcol m m.mem_all).1
  · rw [keyAt_row code press hlt]
    exact (htable code h column hcol m m.mem_all).2

theorem ext_encodes {code : UInt8} (h : code ∈ extCodes) (press : Bool) :
    Encodes (lastByte code press) 2 (.ext code) press := by
  have hmake : ∀ code ∈ extCodes, ∀ press,
      makeOf (lastByte code press) = if press then 1 else 0 := by
    exact forall_mem_of_all (by decide +kernel)
  have htable : ∀ code ∈ extCodes, ∀ m ∈ Modifier.all,
      (ofRow (keyrows.getD (code &&& 0x7F).toNat (0, 0, 0)) 2 = m.key ↔
        (Key.ext code).modifier = some m) ∧
      ofRow (keyrows.getD (code &&& 0x7F).toNat (0, 0, 0)) 2 &&&
        m.flag = 0 := by
    exact forall_mem_of_all (by decide +kernel)
  have hrow := keyAt_row code press (show 2 < MAP_COLS by decide)
  refine ⟨hmake code h press, fun m => ?_, fun m => ?_⟩
  · rw [hrow]
    exact (htable code h m m.mem_all).1
  · rw [hrow]
    exact (htable code h m m.mem_all).2

/-! ## What a key does to the variables -/

theorem Kbd.var_track {key : UInt32} {make : Int} {mod : Option Modifier}
    (hkey : ∀ m : Modifier, key = m.key ↔ mod = some m)
    (hmod : mod ≠ some .altR) (m : Modifier) :
    (k.track key make).var m = if mod = some m then make else k.var m := by
  cases mod with
  | none =>
      have hne (m : Modifier) : key ≠ m.key := fun h => nomatch (hkey m).mp h
      have hk : k.track key make = k := by
        refine (if_neg (hne .shiftL)).trans ?_
        refine (if_neg (hne .shiftR)).trans ?_
        refine (if_neg (hne .ctrlL)).trans ?_
        refine (if_neg (hne .ctrlR)).trans ?_
        refine (if_neg (hne .altL)).trans ?_
        exact if_neg (hne .altR)
      rw [hk]
      rfl
  | some m' =>
      have heq := (hkey m').mpr rfl
      subst heq
      cases m' with
      | altR => exact absurd rfl hmod
      | _ => cases m <;> rfl

/-- The right Alt key. -/
theorem Kbd.var_track_altR {make : Int} (m : Modifier) :
    (k.track ALT_R make).var m = if m = .altL then make else k.var m := by
  cases m <;> rfl

theorem UInt32.or_and_distrib (a b f : UInt32) :
    (a ||| b) &&& f = (a &&& f) ||| (b &&& f) :=
  UInt32.toBitVec_inj.mp BitVec.and_or_distrib_right

theorem flagIf_and (v : Int) (f g : UInt32) :
    flagIf v f &&& g = flagIf v (f &&& g) := by
  rw [flagIf, flagIf]
  split
  · rfl
  · exact UInt32.zero_and

theorem flagIf_zero (v : Int) : flagIf v 0 = 0 := by
  rw [flagIf]
  split <;> rfl

theorem Modifier.flag_and (m m' : Modifier) :
    m.flag &&& m'.flag = if m = m' then m.flag else 0 := by
  cases m <;> cases m' <;> decide

theorem Kbd.flags_and {key : UInt32} {m : Modifier}
    (hkey : key &&& m.flag = 0) :
    k.flags key &&& m.flag ≠ 0 ↔ k.var m ≠ 0 := by
  have hflag : m.flag ≠ 0 := by cases m <;> decide
  have hsame : k.flags key &&& m.flag = flagIf (k.var m) m.flag := by
    show (key ||| flagIf k.shift_l (Modifier.flag .shiftL) |||
      flagIf k.shift_r (Modifier.flag .shiftR) |||
      flagIf k.ctrl_l (Modifier.flag .ctrlL) |||
      flagIf k.ctrl_r (Modifier.flag .ctrlR) |||
      flagIf k.alt_l (Modifier.flag .altL) |||
      flagIf k.alt_r (Modifier.flag .altR)) &&& m.flag = _
    simp only [UInt32.or_and_distrib, hkey, flagIf_and, Modifier.flag_and]
    cases m <;> simp [Kbd.var, flagIf_zero]
  rw [hsame, flagIf]
  split
  · next h => exact iff_of_true hflag h
  · next h => exact iff_of_false (fun h0 => h0 rfl) h

theorem Kbd.track_kb_in (key : UInt32) (make : Int) :
    (k.track key make).kb_in = k.kb_in := by
  rw [Kbd.track]
  split_ifs <;> rfl

theorem Kbd.track_processed (key : UInt32) (make : Int) :
    (k.track key make).processed = k.processed := by
  rw [Kbd.track]
  split_ifs <;> rfl

theorem Kbd.translate_kb_in : (k.translate c).kb_in = k.kb_in := by
  rw [Kbd.translate]
  split
  · exact Kbd.track_kb_in ..
  · exact Kbd.track_kb_in ..

/-- The prefix and the column do not matter for the modifiers. -/
theorem Kbd.var_track_column (code_with_E0 : Int) (column : Nat)
    (key : UInt32) (make : Int) (m : Modifier) :
    (Kbd.track { k with
      code_with_E0 := code_with_E0
      column := column } key make).var m = (k.track key make).var m := by
  rw [Kbd.track, Kbd.track]
  split_ifs <;> rfl

theorem Kbd.var_inProcess (key : UInt32) (m : Modifier) :
    (inProcess k key).var m = k.var m := by
  cases m <;> rfl

theorem Kbd.translate_var (m : Modifier) :
    (k.translate c).var m =
      (k.track (keyAt c k.pickColumn) (makeOf c)).var m := by
  rw [Kbd.translate]
  split
  · rw [Kbd.var_inProcess]
    exact Kbd.var_track_column ..
  · exact Kbd.var_track_column ..

/-- At most one key goes on, with the flags of the variables. -/
theorem Kbd.translate_processed (h : k.processed = []) :
    ∀ key ∈ (k.translate c).processed,
      key = (k.translate c).flags (keyAt c k.pickColumn) := by
  intro key hkey
  rw [Kbd.translate] at hkey ⊢
  split at hkey
  · next hmake =>
      rw [if_pos hmake]
      rcases List.mem_append.mp hkey with hold | hnew
      · rw [Kbd.track_processed, h] at hold
        cases hold
      · rw [List.mem_singleton.mp hnew]
        rfl
  · rw [Kbd.track_processed, h] at hkey
    cases hkey

/-! ## One event -/

/-- What an event does to the driver, the right Alt key apart from the
others. -/
structure Handled (k : Kbd) (e : Event) (k' : Kbd) : Prop where
  empty : k'.kb_in.Holds []
  var : e.key.modifier ≠ some .altR → ∀ m, k'.var m =
    if e.key.modifier = some m then (if e.press then 1 else 0) else k.var m
  altR : e.key.modifier = some .altR → ∀ m, k'.var m =
    if m = .altL then (if e.press then 1 else 0) else k.var m
  flags : ∀ key ∈ k'.processed, ∀ m, key &&& m.flag ≠ 0 ↔ k'.var m ≠ 0

variable {e : Event}

theorem handled_translate {k₀ : Kbd} (hvar : ∀ m, k.var m = k₀.var m)
    (hproc : k.processed = []) (hempty : k.kb_in.Holds [])
    (henc : Encodes c k.pickColumn e.key e.press) :
    Handled k₀ e (k.translate c) := by
  refine ⟨?_, ?_, ?_, ?_⟩
  · rw [Kbd.translate_kb_in]
    exact hempty
  · intro hmod m
    rw [Kbd.translate_var, Kbd.var_track henc.modifier hmod, henc.make,
      hvar m]
  · intro hmod m
    have hkey : keyAt c k.pickColumn = ALT_R := (henc.modifier .altR).mpr hmod
    rw [Kbd.translate_var, hkey, Kbd.var_track_altR, henc.make, hvar m]
  · intro key hkey m
    rw [Kbd.translate_processed hproc key hkey]
    exact Kbd.flags_and (henc.no_flag m)

/-- An event that the driver has no use for. -/
theorem handled_skip {k' : Kbd} (hvar : ∀ m, k'.var m = k.var m)
    (hproc : k'.processed = []) (hempty : k'.kb_in.Holds [])
    (hmod : e.key.modifier = none) : Handled k e k' := by
  refine ⟨hempty, ?_, ?_, ?_⟩
  · intro _ m
    rw [hmod]
    exact hvar m
  · intro h
    rw [hmod] at h
    cases h
  · intro key hkey
    rw [hproc] at hkey
    cases hkey

theorem Kbd.pickColumn_plain (h : k.code_with_E0 = 0) :
    k.pickColumn ∈ [0, 1] := by
  rw [Kbd.pickColumn, if_neg (not_not.mpr h)]
  split
  · exact List.mem_cons_of_mem _ List.mem_cons_self
  · exact List.mem_cons_self

theorem plain_read {code : UInt8} (hcode : code ∈ plainCodes) (press : Bool)
    (h : k.kb_in.Holds [lastByte code press]) (hproc : k.processed = [])
    (hkey : e.key = .plain code) (hpress : e.press = press) :
    ∃ k', keyboardRead k = some ((), k') ∧ Handled k e k' := by
  have hbytes : ∀ code ∈ plainCodes, ∀ press,
      lastByte code press ≠ 0xE1 ∧ lastByte code press ≠ 0xE0 := by
    exact forall_mem_of_all (by decide +kernel)
  obtain ⟨hE1, hE0⟩ := hbytes code hcode press
  obtain ⟨kb, hkb, hread⟩ := read_plain h hE1 hE0
  refine ⟨_, hread, handled_translate (fun _ => rfl) hproc hkb ?_⟩
  rw [hkey, hpress]
  exact plain_encodes hcode press (Kbd.pickColumn_plain rfl)

theorem ext_read {code : UInt8} (hcode : code ∈ extCodes) (press : Bool)
    (h : k.kb_in.Holds [0xE0, lastByte code press])
    (hproc : k.processed = []) (hkey : e.key = .ext code)
    (hpress : e.press = press) :
    ∃ k', keyboardRead k = some ((), k') ∧ Handled k e k' := by
  have hbytes : ∀ code ∈ extCodes, ∀ press,
      lastByte code press ≠ 0x2A ∧ lastByte code press ≠ 0xB7 := by
    exact forall_mem_of_all (by decide +kernel)
  obtain ⟨hmake, hbreak⟩ := hbytes code hcode press
  obtain ⟨kb, hkb, hread⟩ := read_ext h hmake hbreak
  refine ⟨_, hread, handled_translate (fun _ => rfl) hproc hkb ?_⟩
  rw [hkey, hpress]
  exact ext_encodes hcode press

/-- The call that takes the bytes of an event. -/
theorem event_read (h : k.kb_in.Holds (e.key.bytes e.press))
    (hproc : k.processed = []) :
    ∃ k', keyboardRead k = some ((), k') ∧ Handled k e k' := by
  obtain ⟨key, press, hlisted⟩ := e
  cases key with
  | plain code =>
      have hcode : code ∈ plainCodes := of_decide_eq_true hlisted
      cases press with
      | true => exact plain_read hcode true h hproc rfl rfl
      | false => exact plain_read hcode false h hproc rfl rfl
  | ext code =>
      have hcode : code ∈ extCodes := of_decide_eq_true hlisted
      cases press with
      | true => exact ext_read hcode true h hproc rfl rfl
      | false => exact ext_read hcode false h hproc rfl rfl
  | printScreen =>
      cases press with
      | true =>
          obtain ⟨kb, hkb, hread⟩ := read_printScreen h (.inl ⟨rfl, rfl⟩)
          exact ⟨_, hread, handled_skip (fun _ => rfl) hproc hkb rfl⟩
      | false =>
          obtain ⟨kb, hkb, hread⟩ := read_printScreen h (.inr ⟨rfl, rfl⟩)
          exact ⟨_, hread, handled_skip (fun _ => rfl) hproc hkb rfl⟩
  | pause =>
      cases press with
      | true =>
          obtain ⟨kb, hkb, hread⟩ := read_pause h
          exact ⟨_, hread, handled_skip (fun _ => rfl) hproc hkb rfl⟩
      | false =>
          exact ⟨k, keyboardRead_empty h,
            handled_skip (fun _ => rfl) hproc h rfl⟩

/-- What the driver has before it reads an event. -/
def Typing.arrived (s : Typing) (e : Event) : Kbd :=
  { s.kbd with
    processed := [] }.deliver (e.key.bytes e.press)

theorem Key.bytes_length (key : Key) (press : Bool) :
    (key.bytes press).length ≤ KB_IN_BYTES := by
  cases key <;> cases press <;> simp [Key.bytes, KB_IN_BYTES]

theorem typed_handled {s : Typing} (h : s.kbd.kb_in.Holds []) (e : Event) :
    ∃ k', typed s e = some ⟨k', e.apply s.held⟩ ∧ Handled s.kbd e k' := by
  have hbytes : (s.arrived e).kb_in.Holds (e.key.bytes e.press) := by
    have hdel := h.deliver (e.key.bytes e.press) (by
      have hlen := e.key.bytes_length e.press
      rw [List.length_nil]
      omega)
    exact hdel
  obtain ⟨k', hread, hk'⟩ := event_read hbytes rfl
  refine ⟨k', ?_, ⟨hk'.empty, hk'.var, hk'.altR, hk'.flags⟩⟩
  have hreads := keyboardReads_one hread hk'.empty 31
  show (keyboardReads (31 + 1) (s.arrived e)).map _ = _
  rw [hreads]
  rfl

/-! ## Sequences of events -/

/-- Between two events of a run that spares the right Alt key. -/
structure Settled (s : Typing) : Prop where
  empty : s.kbd.kb_in.Holds []
  tracks : Tracks s
  altR_up : s.held .altR = false

variable {s t : Typing}

theorem settled_init (k : Kbd) : Settled (Typing.init k) := by
  refine ⟨holds_init _, ⟨?_, nofun⟩, rfl⟩
  intro m
  cases m <;> exact iff_of_false (fun h => h rfl) nofun

/-- The flags follow from the variables. -/
theorem Handled.tracks {k' : Kbd} {held : Modifier → Bool}
    (h : Handled k e k') (hvar : ∀ m, k'.var m ≠ 0 ↔ held m = true) :
    Tracks ⟨k', held⟩ :=
  ⟨hvar, fun key hkey m => (h.flags key hkey m).trans (hvar m)⟩

theorem press_ne_zero (press : Bool) :
    (if press then 1 else 0 : Int) ≠ 0 ↔ press = true := by
  cases press <;> decide

theorem Settled.step (h : Settled s) (hspare : SparesAltR s e)
    (ht : typed s e = some t) : Settled t := by
  obtain ⟨k', hk', hhandled⟩ := typed_handled h.empty e
  rw [hk'] at ht
  cases ht
  by_cases hmod : e.key.modifier = some .altR
  · obtain ⟨hup, haltL⟩ := hspare hmod
    refine ⟨hhandled.empty, hhandled.tracks ?_, ?_⟩
    · intro m
      rw [hhandled.altR hmod m, Event.apply, hmod, hup]
      by_cases hm : m = .altL
      · subst hm
        simp [haltL]
      · have hsame := h.tracks.var m
        by_cases hr : m = .altR
        · subst hr
          have hzero := mt hsame.mp (by simp [h.altR_up])
          simpa using not_not.mp hzero
        · rw [if_neg hm, if_neg fun heq => hr (Option.some.inj heq).symm]
          exact hsame
    · show (if e.key.modifier = some .altR then e.press else s.held .altR) = _
      rw [if_pos hmod, hup]
  · refine ⟨hhandled.empty, hhandled.tracks ?_, ?_⟩
    · intro m
      rw [hhandled.var hmod m, Event.apply]
      split
      · exact press_ne_zero e.press
      · exact h.tracks.var m
    · show (if e.key.modifier = some .altR then e.press else s.held .altR) = _
      rw [if_neg hmod]
      exact h.altR_up

/-- Where the right Alt key is not spared, the variables are wrong at once. -/
theorem Settled.spares (h : Settled s) (ht : typed s e = some t)
    (htracks : Tracks t) : SparesAltR s e := by
  intro hmod
  obtain ⟨k', hk', hhandled⟩ := typed_handled h.empty e
  rw [hk'] at ht
  cases ht
  have hpress : e.press = false := by
    -- `alt_r` stays zero, and the key is as the event leaves it
    have hnew : k'.var .altR ≠ 0 ↔ e.apply s.held .altR = true :=
      htracks.var .altR
    rw [hhandled.altR hmod .altR, if_neg (by decide), Event.apply,
      if_pos hmod] at hnew
    have hold := h.tracks.var .altR
    rw [h.altR_up] at hold
    exact Bool.eq_false_iff.mpr fun hdown => nomatch hold.mp (hnew.mpr hdown)
  refine ⟨hpress, ?_⟩
  -- `alt_l` is now zero, and the left key is as it was
  have hnew : k'.var .altL ≠ 0 ↔ e.apply s.held .altL = true :=
    htracks.var .altL
  rw [hhandled.altR hmod .altL, if_pos rfl, hpress, Event.apply, hmod,
    if_neg (by decide)] at hnew
  exact Bool.eq_false_iff.mpr fun hdown => hnew.mpr hdown rfl

/-- Every event is read. The variables and the flags tell which keys are down
throughout if and only if the right Alt key is spared throughout. -/
theorem modifiers_track_iff (k : Kbd) (events : List Event) :
    (∃ s, exec typed (Typing.init k) events = some s) ∧
      (Always typed Tracks (Typing.init k) events ↔
        Along typed SparesAltR (Typing.init k) events) := by
  constructor
  · have hread (s : Typing) (e : Event) (h : s.kbd.kb_in.Holds []) :
        ∃ t, typed s e = some t ∧ t.kbd.kb_in.Holds [] := by
      obtain ⟨k', hk', hhandled⟩ := typed_handled h e
      exact ⟨_, hk', hhandled.empty⟩
    obtain ⟨s, hs, -⟩ := exec_total hread (settled_init k).empty events
    exact ⟨s, hs⟩
  · exact always_iff_along (fun _ h => h.tracks) (fun _ _ _ h => h.step)
      (fun _ _ _ h => h.spares) (settled_init k)

/-- The right Alt key is pressed. -/
def pressAltR : List Event := [⟨.ext 0x38, true, by decide⟩]

def zeroKbd : Kbd := ⟨⟨0, 0, 0, fun _ => 0⟩, 0, 0, 0, 0, 0, 0, 0, 0, []⟩

/-- The variable of the left Alt key is set and that of the right one is
not. -/
theorem press_altR_not_tracked : ∃ s,
    exec typed (Typing.init zeroKbd) pressAltR = some s ∧
      s.held .altR = true ∧ s.kbd.alt_r = 0 ∧ s.kbd.alt_l = 1 ∧
      ¬ Tracks s := by
  have hrun : (exec typed (Typing.init zeroKbd) pressAltR).map
      (fun s => (s.held .altR, s.kbd.alt_r, s.kbd.alt_l)) =
        some (true, 0, 1) := by
    decide +kernel
  obtain ⟨s, hs, hres⟩ := Option.map_eq_some_iff.mp hrun
  simp only [Prod.mk.injEq] at hres
  obtain ⟨hheld, hr, hl⟩ := hres
  exact ⟨s, hs, hheld, hr, hl, fun h => (h.var .altR).mpr hheld hr⟩

end LearningLinux.Keyboard
