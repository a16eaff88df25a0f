import Mathlib.Data.List.GetD
import LearningLinux.Keyboard.Session

/-!
# Every call takes the bytes of one event

The sequences of the appendix have one byte, or two, four or six, and several
begin alike. A byte that was taken to look for PrintScreen or Pause is not put
back, so a call that took one too many would read the wrong bytes ever after.

It never does: `decode` takes the bytes of one event and no more, whichever
events they are (`takes_event`), and wherever the interrupts come. Passed on is
then the entry of `keymap` for the key, once for a press.
-/

namespace LearningLinux.Keyboard

open LearningLinux.Lib

/-! ## What the calls should be -/

/-- The bits of a key without those for the modifiers. -/
def MASK_RAW : UInt32 := 0x01FF

def Event.bytes (e : Event) : List UInt8 := e.key.bytes e.press

/-- The column for a key of one byte. -/
def shiftColumn (held : Modifier → Bool) : Nat :=
  if held .shiftL ∨ held .shiftR then 1 else 0

/-- The entry of `keymap` for a key. -/
def Key.entry (held : Modifier → Bool) : Key → Option UInt32
  | .plain code => some (keyAt code (shiftColumn held))
  | .ext code => some (keyAt code 2)
  | .printScreen => none
  | .pause => none

/-- What an event passes on to `in_process`. -/
def Event.keys (e : Event) (held : Modifier → Bool) : List UInt32 :=
  if e.press then (e.key.entry held).toList else []

def Event.call (e : Event) (held : Modifier → Bool) : Call :=
  ⟨e.bytes, e.keys held⟩

def allUp : Modifier → Bool := fun _ => false

/-- The modifiers that are down after some events. -/
def after (held : Modifier → Bool) (events : List Event) : Modifier → Bool :=
  events.foldl (fun held e => e.apply held) held

/-- One call for each event. -/
def frames : (Modifier → Bool) → List Event → List Call
  | _, [] => []
  | held, e :: events => e.call held :: frames (e.apply held) events

def encode (events : List Event) : List UInt8 := events.flatMap Event.bytes

/-- The events that send anything: the release of Pause does not. -/
def sent (events : List Event) : List Event :=
  events.filter fun e => e.bytes ≠ []

/-- A call without the flags of the modifiers. -/
def Call.raw (c : Call) : Call :=
  { c with
    keys := c.keys.map (· &&& MASK_RAW) }

/-- The calls so far are those for the first events. -/
structure Framed (events : List Event) (s : Session) : Prop where
  calls : s.calls.map Call.raw <+: frames allUp (sent events)
  in_order : s.calls.flatMap Call.bytes ++ s.got <+: s.accepted
  idle : s.place = .idle → s.got = []
  /-- The present call has some of the bytes of the next event. -/
  present : s.place ≠ .idle → ∃ c : Call,
    s.calls.map Call.raw ++ [c] <+: frames allUp (sent events) ∧
      s.got <+: c.bytes ∧ s.got ≠ c.bytes
  /-- When all bytes are there the task comes to the end of them. -/
  ends : s.accepted = encode events → ∃ n t,
    exec Session.move s (List.replicate n Move.task) = some t ∧
      t.place = .idle ∧ t.calls.map Call.raw = frames allUp (sent events)

/-! ## The bytes of one event -/

variable {k : Kbd} {held : Modifier → Bool} {code c : UInt8} {e : Event}
  {events old rest : List Event}

def shifts : List Modifier := [.shiftL, .shiftR]

/-- The variables of the shift keys are right. -/
def ShiftsAs (k : Kbd) (held : Modifier → Bool) : Prop :=
  ∀ m ∈ shifts, k.var m ≠ 0 ↔ held m = true

/-- What a call does about an event. -/
structure Effect (e : Event) (held : Modifier → Bool) (k k' : Kbd) : Prop where
  kb_in : k'.kb_in = k.kb_in
  shifts : ShiftsAs k' (e.apply held)
  keys : k'.processed.map (· &&& MASK_RAW) = e.keys held

/-- `f` is what a call should do about an event. -/
def Decodes (e : Event) (f : Kbd → Kbd) : Prop :=
  ∀ k held, k.code_with_E0 = 0 → k.processed = [] → ShiftsAs k held →
    Effect e held k (f k)

theorem keyAt_raw (scan_code : UInt8) (column : Nat) :
    keyAt scan_code column &&& MASK_RAW = keyAt scan_code column := by
  have htable : keymap.all (fun key => key &&& MASK_RAW == key) = true := by
    decide +kernel
  rw [keyAt]
  by_cases hlt : (scan_code &&& 0x7F).toNat * MAP_COLS + column < keymap.length
  · rw [List.getD_eq_getElem _ _ hlt]
    exact eq_of_beq (List.all_eq_true.mp htable _ (List.getElem_mem hlt))
  · rw [List.getD_eq_default _ _ (by omega)]
    rfl

theorem Kbd.flags_raw (key : UInt32) :
    k.flags key &&& MASK_RAW = key &&& MASK_RAW := by
  have hflags : FLAG_SHIFT_L &&& MASK_RAW = 0 ∧ FLAG_SHIFT_R &&& MASK_RAW = 0 ∧
      FLAG_CTRL_L &&& MASK_RAW = 0 ∧ FLAG_CTRL_R &&& MASK_RAW = 0 ∧
      FLAG_ALT_L &&& MASK_RAW = 0 ∧ FLAG_ALT_R &&& MASK_RAW = 0 := by
    decide
  simp [Kbd.flags, UInt32.or_and_distrib, flagIf_and, flagIf_zero, hflags]

/-- One key is passed on for a make code, and none for a break code. -/
theorem Kbd.translate_keys (h : k.processed = []) :
    (k.translate c).processed.map (· &&& MASK_RAW) =
      if makeOf c ≠ 0 then [keyAt c k.pickColumn] else [] := by
  rw [Kbd.translate]
  by_cases hmake : makeOf c ≠ 0
  · rw [if_pos hmake, if_pos hmake, inProcess, Kbd.track_processed, h,
      List.nil_append, List.map_singleton, Kbd.flags_raw, keyAt_raw]
  · rw [if_neg hmake, if_neg hmake, Kbd.track_processed, h, List.map_nil]

theorem shifts_translate {press : Bool} {key : Key}
    (henc : Encodes c k.pickColumn key press) {m : Modifier}
    (hm : m ∈ shifts) : (k.translate c).var m =
      if key.modifier = some m then (if press then 1 else 0) else k.var m := by
  have hne : m ≠ .altL ∧ m ≠ .altR := by
    rcases List.mem_pair.mp hm with rfl | rfl <;> decide
  by_cases hmod : key.modifier = some .altR
  · have hkey : keyAt c k.pickColumn = ALT_R := (henc.modifier .altR).mpr hmod
    rw [Kbd.translate_var, hkey, Kbd.var_track_altR, if_neg hne.1, hmod,
      if_neg fun heq => hne.2 (Option.some.inj heq).symm]
  · rw [Kbd.translate_var, Kbd.var_track henc.modifier hmod, henc.make]

/-- A translation in the column of the event. -/
theorem effect_translate (hproc : k.processed = []) (hk : ShiftsAs k held)
    (henc : Encodes c k.pickColumn e.key e.press)
    (hentry : e.key.entry held = some (keyAt c k.pickColumn)) :
    Effect e held k (k.translate c) := by
  refine ⟨Kbd.translate_kb_in, ?_, ?_⟩
  · intro m hm
    rw [shifts_translate henc hm, Event.apply]
    split
    · exact press_ne_zero e.press
    · exact hk m hm
  · rw [Kbd.translate_keys hproc, henc.make, Event.keys, hentry]
    cases e.press <;> rfl

theorem pickColumn_eq (hE0 : k.code_with_E0 = 0) (hk : ShiftsAs k held) :
    k.pickColumn = shiftColumn held := by
  have hl := hk .shiftL (by decide)
  have hr := hk .shiftR (by decide)
  rw [Kbd.pickColumn, if_neg (not_not.mpr hE0), shiftColumn]
  exact if_congr (or_congr hl hr) rfl rfl

theorem keyAt_lastByte (code : UInt8) (press : Bool) {column : Nat}
    (hcol : column < MAP_COLS) :
    keyAt (lastByte code press) column = keyAt code column :=
  (keyAt_row code press hcol).trans (keyAt_row code true hcol).symm

theorem decodes_plain (hcode : code ∈ plainCodes)
    (hkey : e.key = .plain code) :
    Decodes e fun k => k.translate (lastByte code e.press) := by
  intro k held hE0 hproc hk
  refine effect_translate hproc hk ?_ ?_
  · rw [hkey]
    exact plain_encodes hcode e.press (Kbd.pickColumn_plain hE0)
  · have hcol : shiftColumn held < MAP_COLS := by
      rw [shiftColumn, MAP_COLS]
      split <;> decide
    rw [pickColumn_eq hE0 hk, keyAt_lastByte code e.press hcol, hkey]
    rfl

theorem decodes_ext (hcode : code ∈ extCodes) (hkey : e.key = .ext code) :
    Decodes e fun k => (k.setE0 1).translate (lastByte code e.press) := by
  intro k held _ hproc hk
  have heff : Effect e held (k.setE0 1)
      ((k.setE0 1).translate (lastByte code e.press)) := by
    refine effect_translate hproc hk ?_ ?_
    · rw [hkey]
      exact ext_encodes hcode e.press
    · rw [hkey]
      exact congrArg some (keyAt_lastByte code e.press (by decide)).symm
  exact ⟨heff.kb_in, heff.shifts, heff.keys⟩

/-- PrintScreen and Pause are no concern of the rest of the driver. -/
theorem decodes_id (hmod : e.key.modifier = none)
    (hentry : ∀ held, e.key.entry held = none) : Decodes e id := by
  intro k held _ hproc hk
  refine ⟨rfl, ?_, ?_⟩
  · intro m hm
    rw [Event.apply, hmod, if_neg (by simp)]
    exact hk m hm
  · rw [id, hproc, Event.keys, hentry]
    cases e.press <;> rfl

theorem takes_plain (hE1 : c ≠ 0xE1) (hE0 : c ≠ 0xE0) :
    Reading.decode.Takes [c] fun k => k.translate c := by
  refine Iteratee.Takes.get_bind ?_
  rw [if_neg hE1, if_neg hE0]
  exact .done _

theorem takes_ext (hmake : c ≠ 0x2A) (hbreak : c ≠ 0xB7) :
    Reading.decode.Takes [0xE0, c] fun k => (k.setE0 1).translate c := by
  refine Iteratee.Takes.get_bind ?_
  rw [if_neg (by decide), if_pos rfl]
  refine Iteratee.Takes.get_bind ?_
  have hnone : (Reading.printScreen c).Takes [] 0 := by
    unfold Reading.printScreen
    rw [if_neg hmake]
    show (if c = 0xB7 then _ else pure (0 : UInt32) : Reading UInt32).Takes _ _
    rw [if_neg hbreak]
    exact .done _
  exact hnone.bind (.done _)

theorem takes_printScreen {second : UInt8}
    (hc : c = 0x2A ∧ second = 0x37 ∨ c = 0xB7 ∧ second = 0xAA) :
    Reading.decode.Takes [0xE0, c, 0xE0, second] id := by
  rcases hc with ⟨rfl, rfl⟩ | ⟨rfl, rfl⟩
  · exact .ask (.ask (.ask (.ask (.done id))))
  · exact .ask (.ask (.ask (.ask (.done id))))

theorem takes_pause :
    Reading.decode.Takes [0xE1, 0x1D, 0x45, 0xE1, 0x9D, 0xC5] id :=
  .ask (.ask (.ask (.ask (.ask (.ask (.done id))))))

/-- The decoder takes the bytes of an event, one by one and no more, and does
what it should. -/
theorem takes_event (h : e.bytes ≠ []) :
    ∃ f, Reading.decode.Takes e.bytes f ∧ Decodes e f := by
  obtain ⟨key, press, hlisted⟩ := e
  cases key with
  | plain code =>
      have hcode : code ∈ plainCodes := of_decide_eq_true hlisted
      have hbytes : ∀ code ∈ plainCodes, ∀ press,
          lastByte code press ≠ 0xE1 ∧ lastByte code press ≠ 0xE0 := by
        exact forall_mem_of_all (by decide +kernel)
      obtain ⟨hE1, hE0⟩ := hbytes code hcode press
      refine ⟨_, ?_, decodes_plain hcode rfl⟩
      cases press <;> exact takes_plain hE1 hE0
  | ext code =>
      have hcode : code ∈ extCodes := of_decide_eq_true hlisted
      have hbytes : ∀ code ∈ extCodes, ∀ press,
          lastByte code press ≠ 0x2A ∧ lastByte code press ≠ 0xB7 := by
        exact forall_mem_of_all (by decide +kernel)
      obtain ⟨hmake, hbreak⟩ := hbytes code hcode press
      refine ⟨_, ?_, decodes_ext hcode rfl⟩
      cases press <;> exact takes_ext hmake hbreak
  | printScreen =>
      refine ⟨id, ?_, decodes_id rfl fun _ => rfl⟩
      cases press with
      | true => exact takes_printScreen (.inl ⟨rfl, rfl⟩)
      | false => exact takes_printScreen (.inr ⟨rfl, rfl⟩)
  | pause =>
      cases press with
      | true => exact ⟨id, takes_pause, decodes_id rfl fun _ => rfl⟩
      | false => exact absurd rfl h

/-! ## Lists of events -/

theorem encode_append (events events' : List Event) :
    encode (events ++ events') = encode events ++ encode events' :=
  List.flatMap_append

theorem encode_cons (e : Event) (events : List Event) :
    encode (e :: events) = e.bytes ++ encode events := rfl

/-- Leaving out what sends nothing does not change the bytes. -/
theorem encode_sent (events : List Event) :
    encode (sent events) = encode events := by
  induction events with
  | nil => rfl
  | cons e events ih =>
      by_cases he : e.bytes = []
      · rw [sent, List.filter_cons_of_neg (by simp [he]), encode_cons, he]
        exact ih
      · rw [sent, List.filter_cons_of_pos (by simp [he]), encode_cons,
          encode_cons]
        exact congrArg _ ih

theorem frames_append (held : Modifier → Bool) (old new : List Event) :
    frames held (old ++ new) =
      frames held old ++ frames (after held old) new := by
  induction old generalizing held with
  | nil => rfl
  | cons e old ih => exact congrArg _ (ih (e.apply held))

theorem frames_bytes (held : Modifier → Bool) (events : List Event) :
    (frames held events).flatMap Call.bytes = encode events := by
  induction events generalizing held with
  | nil => rfl
  | cons e events ih => exact congrArg _ (ih (e.apply held))

theorem after_snoc (held : Modifier → Bool) (old : List Event) (e : Event) :
    after held (old ++ [e]) = e.apply (after held old) := by
  simp [after]

/-! ## Runs -/

/-- In a call that has got some bytes of the first of these events. -/
structure Under (s : Session) (next : UInt8 → Reading (Kbd → Kbd))
    (new : List Event) : Prop where
  event : ∃ e rest bytes f, new = e :: rest ∧ e.bytes = s.got ++ bytes ∧
    (Iteratee.ask next).Takes bytes f ∧ Decodes e f
  code_with_E0 : s.kbd.code_with_E0 = 0
  processed : s.kbd.processed = []

/-- The events `old` have been dealt with, `new` have not, and the bytes `q`
are in the buffer. -/
structure Stands (s : Session) (old new : List Event) (q : List UInt8) :
    Prop where
  holds : s.kbd.kb_in.Holds q
  calls : s.calls.map Call.raw = frames allUp old
  accepted : s.accepted = encode old ++ (s.got ++ q)
  shifts : ShiftsAs s.kbd (after allUp old)
  idle : s.place = .idle → s.got = []
  waiting : ∀ next, s.place = .waiting next → Under s next new
  leaving : ∀ next, s.place = .leaving next → Under s next new ∧ q ≠ []

variable {s t : Session} {new : List Event} {q : List UInt8} {b : UInt8}

theorem stands_init (k : Kbd) (events : List Event) :
    Stands (Session.init k) [] events [] := by
  refine ⟨holds_init _, rfl, rfl, ?_, fun _ => rfl, nofun, nofun⟩
  intro m hm
  rcases List.mem_pair.mp hm with rfl | rfl <;> exact iff_of_false (· rfl) nofun

theorem Stands.interrupt (h : Stands s old new q) (b : UInt8) :
    ∃ q', Stands (s.interrupt b) old new q' := by
  have hunder {next} (hu : Under s next new) : Under (s.interrupt b) next new :=
    ⟨hu.event, hu.code_with_E0, hu.processed⟩
  by_cases hroom : s.kbd.kb_in.HasRoom
  · refine ⟨q ++ [b], ?_, h.calls, ?_, h.shifts, h.idle,
      fun next hp => hunder (h.waiting next hp),
      fun next hp => ⟨hunder (h.leaving next hp).1, by simp⟩⟩
    · rw [Session.interrupt, KbInput.keyboardHandler, if_pos hroom]
      exact h.holds.store hroom
    · rw [Session.interrupt, if_pos hroom, h.accepted, List.append_assoc,
        List.append_assoc]
  · refine ⟨q, ?_, h.calls, ?_, h.shifts, h.idle,
      fun next hp => hunder (h.waiting next hp),
      fun next hp => ⟨hunder (h.leaving next hp).1, (h.leaving next hp).2⟩⟩
    · rw [Session.interrupt, KbInput.keyboardHandler, if_neg hroom]
      exact h.holds
    · rw [Session.interrupt, if_neg hroom]
      exact h.accepted

theorem KbInput.Holds.pos_iff {kb : KbInput} (h : kb.Holds q) :
    0 < kb.count ↔ q ≠ [] := by
  rw [h.count, ← List.length_pos_iff]
  exact Int.natCast_pos

/-- The call goes on, and is still under way or has come to its end with the
last byte of the event. -/
theorem stands_goOn {c : Reading (Kbd → Kbd)} {f : Kbd → Kbd}
    {bytes : List UInt8} (hholds : s.kbd.kb_in.Holds q)
    (hcalls : s.calls.map Call.raw = frames allUp old)
    (hacc : s.accepted = encode old ++ (s.got ++ q))
    (hshifts : ShiftsAs s.kbd (after allUp old))
    (hE0 : s.kbd.code_with_E0 = 0) (hproc : s.kbd.processed = [])
    (hbytes : e.bytes = s.got ++ bytes) (htakes : c.Takes bytes f)
    (hdec : Decodes e f) : ∃ old' new', old' ++ new' = old ++ e :: rest ∧
      Stands (s.goOn c) old' new' q := by
  cases c with
  | done g =>
      obtain ⟨rfl, rfl⟩ := htakes.cases_done
      rw [List.append_nil] at hbytes
      have heff := hdec s.kbd _ hE0 hproc hshifts
      refine ⟨old ++ [e], rest, by simp, ?_, ?_, ?_, ?_, fun _ => rfl, nofun,
        nofun⟩
      · show (f s.kbd).kb_in.Holds q
        rw [heff.kb_in]
        exact hholds
      · show (s.calls ++ [_]).map Call.raw = _
        rw [List.map_append, hcalls, frames_append, ← hbytes]
        exact congrArg (fun keys => _ ++ [Call.mk e.bytes keys]) heff.keys
      · show s.accepted = _
        rw [hacc, encode_append, ← hbytes, List.append_assoc]
        simp [encode, Session.goOn]
      · rw [after_snoc]
        exact heff.shifts
  | ask next =>
      refine ⟨old, e :: rest, rfl, hholds, hcalls, hacc, hshifts, nofun, ?_,
        nofun⟩
      intro next' hp
      cases hp
      exact ⟨⟨e, rest, bytes, f, rfl, hbytes, htakes, hdec⟩, hE0, hproc⟩

/-- A call is entered: the buffer has the first byte of an event. -/
theorem Stands.enter (h : Stands s old new q) (hidle : s.place = .idle)
    (hq : q ≠ []) (hpre : s.accepted <+: encode (old ++ new))
    (hsend : ∀ e ∈ new, e.bytes ≠ []) :
    Stands s.enter old new q := by
  have hgot := h.idle hidle
  have hacc := h.accepted
  rw [hgot, List.nil_append] at hacc
  rw [hacc, encode_append, List.prefix_append_right_inj] at hpre
  cases new with
  | nil => exact absurd (List.prefix_nil.mp hpre) hq
  | cons e rest =>
      obtain ⟨f, htakes, hdec⟩ := takes_event (hsend e List.mem_cons_self)
      refine ⟨h.holds, h.calls, h.accepted, h.shifts, nofun, ?_, nofun⟩
      intro next hp
      cases hp
      refine ⟨⟨e, rest, e.bytes, f, rfl, ?_, htakes, hdec⟩, rfl, rfl⟩
      show e.bytes = s.got ++ e.bytes
      rw [hgot, List.nil_append]

theorem Stands.takeByte {next : UInt8 → Reading (Kbd → Kbd)}
    (h : Stands s old new (b :: q)) (hu : Under s next new)
    (hpre : s.accepted <+: encode (old ++ new)) :
    ∃ old' new', old' ++ new' = old ++ new ∧
      Stands (s.takeByte next) old' new' q := by
  obtain ⟨e, rest, bytes, f, rfl, hbytes, htakes, hdec⟩ := hu.event
  obtain ⟨b', bytes, rfl, hnext⟩ := htakes.cases_ask
  have hb : b = b' := by
    rw [h.accepted, encode_append, encode_cons, hbytes, List.append_assoc,
      List.prefix_append_right_inj, List.prefix_append_right_inj] at hpre
    exact (List.cons_prefix_cons.mp hpre).1
  subst hb
  have htake := h.holds.take_byte
  rw [← htake] at hnext
  have hgot : e.bytes = (s.got ++ [s.kbd.kb_in.take.1]) ++ bytes := by
    rw [htake, List.append_assoc]
    exact hbytes
  refine stands_goOn h.holds.take_rest h.calls ?_ h.shifts hu.code_with_E0
    hu.processed hgot hnext hdec
  show s.accepted = _ ++ ((s.got ++ [_]) ++ q)
  rw [htake, List.append_assoc]
  exact h.accepted

/-- Somewhere in the events. -/
def Stood (events : List Event) (s : Session) : Prop :=
  ∃ old new q, old ++ new = events ∧ Stands s old new q

/-- The test of the loop in `get_byte_from_kbuf`. -/
theorem Stands.look {next : UInt8 → Reading (Kbd → Kbd)}
    (h : Stands s old new q) (hplace : s.place = .waiting next) :
    Stands s.task old new q := by
  have hu := h.waiting next hplace
  have htask : s.task = { s with
      place := if s.kbd.kb_in.count ≤ 0 then .waiting next
        else .leaving next } := by
    rw [Session.task, hplace]
  rw [htask]
  split
  · refine ⟨h.holds, h.calls, h.accepted, h.shifts, nofun, ?_, nofun⟩
    intro next' hp
    cases hp
    exact ⟨hu.event, hu.code_with_E0, hu.processed⟩
  · next hpos =>
      refine ⟨h.holds, h.calls, h.accepted, h.shifts, nofun, nofun, ?_⟩
      intro next' hp
      cases hp
      exact ⟨⟨hu.event, hu.code_with_E0, hu.processed⟩,
        h.holds.pos_iff.mp (by omega)⟩

theorem Stands.task (h : Stands s old new q)
    (hpre : s.accepted <+: encode (old ++ new))
    (hsend : ∀ e ∈ new, e.bytes ≠ []) : Stood (old ++ new) s.task := by
  cases hplace : s.place with
  | idle =>
      rw [Session.task, hplace]
      dsimp only
      split
      · next hpos =>
          exact ⟨old, new, q, rfl,
            h.enter hplace (h.holds.pos_iff.mp hpos) hpre hsend⟩
      · exact ⟨old, new, q, rfl, h⟩
  | waiting next => exact ⟨old, new, q, rfl, h.look hplace⟩
  | leaving next =>
      rw [Session.task, hplace]
      obtain ⟨hu, hq⟩ := h.leaving next hplace
      obtain ⟨b, q, rfl⟩ := List.exists_cons_of_ne_nil hq
      obtain ⟨old', new', heq, hstands⟩ := h.takeByte hu hpre
      exact ⟨old', new', q, heq, hstands⟩

theorem goOn_accepted (c : Reading (Kbd → Kbd)) :
    (s.goOn c).accepted = s.accepted := by
  cases c <;> rfl

theorem task_accepted : s.task.accepted = s.accepted := by
  rw [Session.task]
  split
  · split
    · exact goOn_accepted _
    · rfl
  · rfl
  · exact goOn_accepted _

theorem accepted_grows {m : Move} (h : s.move m = some t) :
    s.accepted <+: t.accepted := by
  cases m with
  | interrupt b =>
      cases h
      rw [Session.interrupt]
      dsimp only
      split
      · exact List.prefix_append _ _
      · exact List.prefix_rfl
  | task =>
      cases h
      rw [task_accepted]

/-- While the bytes are those of the events, one knows where one is. -/
theorem stood_step {m : Move} (hsend : ∀ e ∈ events, e.bytes ≠ [])
    (hs : s.accepted <+: encode events → Stood events s)
    (h : s.move m = some t) :
    t.accepted <+: encode events → Stood events t := by
  intro hpre
  have hpre' := (accepted_grows h).trans hpre
  obtain ⟨old, new, q, rfl, hstands⟩ := hs hpre'
  cases m with
  | interrupt b =>
      cases h
      obtain ⟨q', hstands⟩ := hstands.interrupt b
      exact ⟨old, new, q', rfl, hstands⟩
  | task =>
      cases h
      exact hstands.task hpre' fun e he =>
        hsend e (List.mem_append_right _ he)

/-! ## To the end of the bytes -/

theorem Stands.task_leaving {next : UInt8 → Reading (Kbd → Kbd)}
    (h : Stands s old new (b :: q)) (hplace : s.place = .leaving next)
    (hpre : s.accepted <+: encode (old ++ new)) :
    ∃ old' new', old' ++ new' = old ++ new ∧ Stands s.task old' new' q := by
  rw [Session.task, hplace]
  exact h.takeByte (h.leaving next hplace).1 hpre

theorem Stands.task_waiting {next : UInt8 → Reading (Kbd → Kbd)}
    (h : Stands s old new (b :: q)) (hplace : s.place = .waiting next)
    (hpre : s.accepted <+: encode (old ++ new)) :
    ∃ old' new', old' ++ new' = old ++ new ∧
      Stands s.task.task old' new' q := by
  have hpos := h.holds.pos_iff.mpr (List.cons_ne_nil b q)
  have hleave : s.task.place = .leaving next := by
    rw [Session.task, hplace]
    exact if_neg (by omega)
  rw [← task_accepted] at hpre
  exact (h.look hplace).task_leaving hleave hpre

theorem Stands.task_idle (h : Stands s old new (b :: q))
    (hplace : s.place = .idle) (hpre : s.accepted <+: encode (old ++ new))
    (hsend : ∀ e ∈ new, e.bytes ≠ []) :
    ∃ old' new', old' ++ new' = old ++ new ∧
      Stands s.task.task.task old' new' q := by
  have hpos := h.holds.pos_iff.mpr (List.cons_ne_nil b q)
  have henter : s.task = s.enter := by
    rw [Session.task, hplace]
    exact if_pos hpos
  have hstands := h.enter hplace (List.cons_ne_nil b q) hpre hsend
  rw [henter]
  exact hstands.task_waiting rfl hpre

/-- The task takes the next byte in a few steps. -/
theorem Stands.byte (h : Stands s old new (b :: q))
    (hpre : s.accepted <+: encode (old ++ new))
    (hsend : ∀ e ∈ old ++ new, e.bytes ≠ []) :
    ∃ n t old' new',
      exec Session.move s (List.replicate n Move.task) = some t ∧
        t.accepted = s.accepted ∧ old' ++ new' = old ++ new ∧
          Stands t old' new' q := by
  cases hplace : s.place with
  | idle =>
      obtain ⟨old', new', heq, ht⟩ := h.task_idle hplace hpre fun e he =>
        hsend e (List.mem_append_right _ he)
      exact ⟨3, _, old', new', rfl, by simp only [task_accepted], heq, ht⟩
  | waiting next =>
      obtain ⟨old', new', heq, ht⟩ := h.task_waiting hplace hpre
      exact ⟨2, _, old', new', rfl, by simp only [task_accepted], heq, ht⟩
  | leaving next =>
      obtain ⟨old', new', heq, ht⟩ := h.task_leaving hplace hpre
      exact ⟨1, _, old', new', rfl, task_accepted, heq, ht⟩

theorem encode_eq_nil (hsend : ∀ e ∈ events, e.bytes ≠ [])
    (h : encode events = []) : events = [] := by
  cases events with
  | nil => rfl
  | cons e events =>
      exact absurd (List.append_eq_nil_iff.mp h).1
        (hsend e List.mem_cons_self)

/-- With all bytes taken, the task is behind the last event. -/
theorem Stands.at_end (h : Stands s old new [])
    (hall : s.accepted = encode (old ++ new))
    (hsend : ∀ e ∈ old ++ new, e.bytes ≠ []) :
    s.place = .idle ∧ new = [] := by
  have hgot : s.got = encode new := by
    have hacc := h.accepted
    rw [hall, encode_append, List.append_nil] at hacc
    exact (List.append_cancel_left hacc).symm
  cases hplace : s.place with
  | idle =>
      rw [h.idle hplace] at hgot
      exact ⟨rfl, encode_eq_nil
        (fun e he => hsend e (List.mem_append_right _ he)) hgot.symm⟩
  | waiting next =>
      obtain ⟨e, rest, bytes, f, rfl, hbytes, htakes, -⟩ :=
        (h.waiting next hplace).event
      obtain ⟨b, bytes, rfl, -⟩ := htakes.cases_ask
      have hlen := congrArg List.length hgot
      simp [encode_cons, hbytes] at hlen
  | leaving next => exact absurd rfl (h.leaving next hplace).2

theorem Stands.ends (h : Stands s old new q)
    (hall : s.accepted = encode (old ++ new))
    (hsend : ∀ e ∈ old ++ new, e.bytes ≠ []) : ∃ n t,
      exec Session.move s (List.replicate n Move.task) = some t ∧
        t.place = .idle ∧
          t.calls.map Call.raw = frames allUp (old ++ new) := by
  induction q generalizing s old new with
  | nil =>
      obtain ⟨hidle, rfl⟩ := h.at_end hall hsend
      refine ⟨0, s, rfl, hidle, ?_⟩
      rw [List.append_nil]
      exact h.calls
  | cons b q ih =>
      obtain ⟨n, t, old', new', hrun, hacc, heq, ht⟩ :=
        h.byte (hall ▸ List.prefix_rfl) hsend
      rw [← heq] at hall hsend ⊢
      obtain ⟨m, u, hrest, hu⟩ := ih ht (hacc.trans hall) hsend
      refine ⟨n + m, u, ?_, hu⟩
      rw [List.replicate_add]
      exact exec_append.mpr ⟨t, hrun, hrest⟩

theorem Stood.framed (hsend : ∀ e ∈ sent events, e.bytes ≠ [])
    (h : Stood (sent events) s) : Framed events s := by
  obtain ⟨old, new, q, heq, hs⟩ := h
  have hframes : frames allUp (sent events) =
      frames allUp old ++ frames (after allUp old) new := by
    rw [← heq, frames_append]
  have hunder {next} (hu : Under s next new) : ∃ c : Call,
      s.calls.map Call.raw ++ [c] <+: frames allUp (sent events) ∧
        s.got <+: c.bytes ∧ s.got ≠ c.bytes := by
    obtain ⟨e, rest, bytes, f, rfl, hbytes, htakes, -⟩ := hu.event
    obtain ⟨b, bytes, rfl, -⟩ := htakes.cases_ask
    refine ⟨e.call (after allUp old), ?_, ?_, ?_⟩
    · rw [hframes, hs.calls, List.prefix_append_right_inj, frames]
      exact List.prefix_append [_] _
    · show s.got <+: e.bytes
      rw [hbytes]
      exact List.prefix_append _ _
    · show s.got ≠ e.bytes
      rw [hbytes]
      simp
  refine ⟨?_, ?_, hs.idle, ?_, ?_⟩
  · rw [hs.calls, hframes]
    exact List.prefix_append _ _
  · have hbytes : s.calls.flatMap Call.bytes = encode old := by
      rw [← frames_bytes allUp old, ← hs.calls, List.flatMap_map]
      rfl
    rw [hbytes, hs.accepted, ← List.append_assoc]
    exact List.prefix_append _ _
  · intro hbusy
    cases hplace : s.place with
    | idle => exact absurd hplace hbusy
    | waiting next => exact hunder (hs.waiting next hplace)
    | leaving next => exact hunder (hs.leaving next hplace).1
  · intro hall
    rw [← encode_sent, ← heq] at hall
    rw [← heq] at hsend ⊢
    exact hs.ends hall hsend

/-- Whatever keys are pressed and released, and wherever the interrupts come:
every call takes the bytes of one event, and passes on what it should. -/
theorem keyboard_framed {moves : List Move}
    (hrun : exec Session.move (Session.init k) moves = some s)
    (hbytes : s.accepted <+: encode events) : Framed events s := by
  have hsend : ∀ e ∈ sent events, e.bytes ≠ [] := fun e he =>
    of_decide_eq_true (List.mem_filter.mp he).2
  have hinit : Stood (sent events) (Session.init k) :=
    ⟨[], _, [], rfl, stands_init k _⟩
  have hstood := exec_inv (fun _ _ _ hs h => stood_step hsend hs h)
    (fun _ => hinit) hrun
  rw [← encode_sent] at hbytes
  exact (hstood hbytes).framed hsend

/-- Shift goes down, then PrintScreen, then `a`. -/
def shiftPrintA : List Event :=
  [⟨.plain 0x2A, true, by decide⟩, ⟨.printScreen, true, rfl⟩,
    ⟨.plain 0x1E, true, by decide⟩]

/-- A call finds its bytes one at a time. -/
def oneAtATime (bytes : List UInt8) : List Move :=
  bytes.flatMap fun b => [Move.task, Move.interrupt b, Move.task, Move.task]

theorem keyboard_framed_shift : ∃ s,
    exec Session.move (Session.init zeroKbd)
      (oneAtATime [0x2A, 0xE0, 0x2A, 0xE0, 0x37, 0x1E] ++
        List.replicate 9 Move.task) = some s ∧
      s.calls.map Call.raw = [⟨[0x2A], [SHIFT_L]⟩,
        ⟨[0xE0, 0x2A, 0xE0, 0x37], []⟩, ⟨[0x1E], ['A'.val]⟩] ∧
      Framed shiftPrintA s := by
  have hrun : (exec Session.move (Session.init zeroKbd)
      (oneAtATime [0x2A, 0xE0, 0x2A, 0xE0, 0x37, 0x1E] ++
        List.replicate 9 Move.task)).map
          (fun s => (s.accepted, s.calls.map Call.raw)) =
      some ([0x2A, 0xE0, 0x2A, 0xE0, 0x37, 0x1E], [⟨[0x2A], [SHIFT_L]⟩,
        ⟨[0xE0, 0x2A, 0xE0, 0x37], []⟩, ⟨[0x1E], ['A'.val]⟩]) := by
    decide +kernel
  obtain ⟨s, hs, hres⟩ := Option.map_eq_some_iff.mp hrun
  simp only [Prod.mk.injEq] at hres
  refine ⟨s, hs, hres.2, keyboard_framed hs ?_⟩
  rw [hres.1]
  exact List.prefix_rfl

end LearningLinux.Keyboard
