import Mathlib.Data.List.Count
import LearningLinux.Scull.Pipe

/-!
# Opening and closing a scullpipe

A device together with the files that are open on it. `scull_p_open` puts both
pointers back to the beginning, not only when it has just allocated the buffer
but every time, and so an open that finds unread bytes loses them. The main
result is that nothing else does, as long as somebody has the device open.

What was accepted and returned is counted anew whenever the last file is
closed, since that is when the buffer is given back.
-/

namespace LearningLinux.Scull

open LearningLinux.Lib

structure Session where
  pipe : Traffic
  files : List Mode

/-- The state that `scull_p_init` leaves. -/
def Session.init : Session := ⟨⟨closedPipe, [], []⟩, []⟩

/-- An open, a call through an open file, the release of an open file. -/
inductive Op where
  | opens (c : OpenCall)
  | call (i : Nat) (c : Call)
  | release (i : Nat)

/-- The kernel passes a call on only if the file was opened for it. -/
def Call.allowed : Call → Mode → Bool
  | .read _, mode => mode.read
  | .write _, mode => mode.write

/-- Somebody has the device open. -/
def ScullPipe.InUse (dev : ScullPipe) : Prop := 0 < dev.nreaders + dev.nwriters

instance (dev : ScullPipe) : Decidable dev.InUse :=
  inferInstanceAs (Decidable (_ < _))

def Session.opens (scull_p_buffer : Nat) (s : Session) (c : OpenCall) :
    Session :=
  let r := scullPOpen scull_p_buffer s.pipe.dev c
  ⟨⟨r.2, s.pipe.accepted, s.pipe.returned⟩,
    if r.1 = .ok then s.files ++ [c.mode] else s.files⟩

def Session.release (s : Session) (i : Nat) (mode : Mode) : Session :=
  let dev := scullPRelease s.pipe.dev mode
  if dev.InUse then
    ⟨⟨dev, s.pipe.accepted, s.pipe.returned⟩, s.files.eraseIdx i⟩
  else ⟨⟨dev, [], []⟩, s.files.eraseIdx i⟩

def Session.step (scull_p_buffer : Nat) (s : Session) : Op → Option Session
  | .opens c => some (s.opens scull_p_buffer c)
  | .call i c =>
      match s.files[i]? with
      | none => none
      | some mode =>
          if c.allowed mode then (s.pipe.call c).map fun pipe => ⟨pipe, s.files⟩
          else none
  | .release i => s.files[i]?.map fun mode => s.release i mode

/-- While the device is in use, every byte that was accepted has been
returned or is in the pipe, in order. -/
def Keeps (s : Session) : Prop :=
  s.pipe.dev.InUse → s.pipe.dev.buffer.isSome ∧
    s.pipe.accepted = s.pipe.returned ++ s.pipe.dev.unread

/-- A further open finds nothing unread. -/
def FindsEmpty (s : Session) : Op → Prop
  | .opens c => c.signal = false → s.pipe.dev.InUse →
      s.pipe.dev.rp = s.pipe.dev.wp
  | _ => True

/-! ## A buffer of no bytes -/

/-- `kmalloc(0)` does not fail, but nothing fits in. -/
structure ScullPipe.Void (dev : ScullPipe) : Prop where
  buffer : dev.buffer.isSome
  size : dev.buffersize = 0
  rp : dev.rp = 0
  wp : dev.wp = 0

variable {dev : ScullPipe} {q : List UInt8}

theorem ScullPipe.Void.unread_eq (h : dev.Void) : dev.unread = [] := by
  rw [ScullPipe.unread, ringList, h.size, h.rp, h.wp]
  rfl

theorem ScullPipe.Void.read (h : dev.Void) (c : ReadCall) :
    (scullPRead dev c).1.bytes = [] ∧ (scullPRead dev c).2 = dev := by
  rw [scullPRead]
  split
  · exact ⟨rfl, rfl⟩
  rw [if_pos (h.rp.trans h.wp.symm)]
  cases c.nonblock <;> exact ⟨rfl, rfl⟩

theorem ScullPipe.Void.writeCount (h : dev.Void) (count : Nat) :
    dev.writeCount count = 0 := by
  rw [ScullPipe.writeCount, if_pos (by rw [h.rp]; exact Nat.zero_le _), h.size,
    h.wp]
  exact Nat.min_zero _

theorem ScullPipe.Void.write (h : dev.Void) (c : WriteCall) :
    (scullPWrite dev c).1.bytes = [] ∧ (scullPWrite dev c).2.Void := by
  rw [scullPWrite]
  split
  · exact ⟨rfl, h⟩
  split
  · cases c.nonblock <;> exact ⟨rfl, h⟩
  have hbuf (bytes : List UInt8) : (dev.copyFromUser bytes).buffer.isSome := by
    simpa [ScullPipe.copyFromUser] using h.buffer
  rw [h.writeCount]
  cases c.fault with
  | some left => exact ⟨rfl, hbuf _, h.size, h.rp, h.wp⟩
  | none =>
      refine ⟨rfl, hbuf _, h.size, h.rp, ?_⟩
      show dev.wrapped (dev.wp + 0) = 0
      rw [ScullPipe.wrapped, h.wp, if_pos h.size.symm]

/-- The bytes `q` are in the buffer, whatever its size. -/
def ScullPipe.Has (dev : ScullPipe) (q : List UInt8) : Prop :=
  dev.Holds q ∨ dev.Void ∧ q = []

theorem ScullPipe.Has.buffer (h : dev.Has q) : dev.buffer.isSome := by
  rcases h with h | ⟨h, -⟩
  · exact h.buffer
  · exact h.buffer

theorem ScullPipe.Has.unread_eq (h : dev.Has q) : dev.unread = q := by
  rcases h with h | ⟨h, rfl⟩
  · exact h.unread_eq
  · exact h.unread_eq

theorem ScullPipe.Has.rp_eq_wp (h : dev.Has q) :
    dev.rp = dev.wp ↔ q = [] := by
  rcases h with h | ⟨h, rfl⟩
  · rw [h.rp_eq_wp, List.length_eq_zero_iff]
  · exact iff_of_true (h.rp.trans h.wp.symm) rfl

theorem has_opened {n : Nat} {mode : Mode} (hbuf : dev.buffer.isSome) :
    (dev.opened n mode).Has [] := by
  rcases Nat.eq_zero_or_pos n with rfl | hpos
  · exact Or.inr ⟨⟨hbuf, rfl, rfl, rfl⟩, rfl⟩
  · exact Or.inl (holds_opened hbuf hpos)

/-- Traffic takes from the front of the queue and adds to its end. -/
theorem ScullPipe.Has.call {s t : Traffic} (h : s.dev.Has q)
    (hacc : s.accepted = s.returned ++ q) {c : Call}
    (hc : s.call c = some t) :
    ∃ q', t.accepted = t.returned ++ q' ∧ t.dev.Has q' := by
  rcases h with h | ⟨h, rfl⟩
  · have hinv : s.Inv s.dev.buffersize := ⟨rfl, q, hacc, h⟩
    obtain ⟨q', hacc', hq'⟩ := (hinv.call hc).holds
    exact ⟨q', hacc', Or.inl hq'⟩
  · refine ⟨[], ?_⟩
    cases c with
    | read c =>
        cases hc
        obtain ⟨hnone, hsame⟩ := h.read c
        show s.accepted = (s.returned ++ _) ++ [] ∧ _
        rw [hnone, hsame, List.append_nil]
        exact ⟨hacc, Or.inr ⟨h, rfl⟩⟩
    | write c =>
        cases hc
        obtain ⟨hnone, hvoid⟩ := h.write c
        show s.accepted ++ _ = s.returned ++ [] ∧ _
        rw [hnone, List.append_nil]
        exact ⟨hacc, Or.inr ⟨hvoid, rfl⟩⟩

/-! ## Runs -/

/-- Every open file is counted, as a reader or a writer or both. -/
structure Session.Counted (s : Session) : Prop where
  readers : s.pipe.dev.nreaders = s.files.countP (·.read)
  writers : s.pipe.dev.nwriters = s.files.countP (·.write)

structure Session.Inv (s : Session) : Prop where
  readers : s.pipe.dev.nreaders = s.files.countP (·.read)
  writers : s.pipe.dev.nwriters = s.files.countP (·.write)
  used : s.pipe.dev.InUse → ∃ q, s.pipe.accepted = s.pipe.returned ++ q ∧
    s.pipe.dev.Has q
  unused : ¬ s.pipe.dev.InUse → s.pipe.accepted = [] ∧ s.pipe.returned = []

variable {n : Nat} {s t : Session}

theorem inv_init : Session.init.Inv :=
  ⟨rfl, rfl, fun h => absurd h (by decide), fun _ => ⟨rfl, rfl⟩⟩

theorem Session.Inv.keeps (h : s.Inv) : Keeps s := by
  intro huse
  obtain ⟨q, hacc, hq⟩ := h.used huse
  rw [hq.unread_eq]
  exact ⟨hq.buffer, hacc⟩

theorem countIf_eq (b : Bool) : countIf b = if b then 1 else 0 := rfl

theorem countP_concat {α : Type*} (p : α → Bool) (l : List α) (a : α) :
    (((l ++ [a]).countP p : Nat) : Int) = l.countP p + countIf (p a) := by
  rw [List.countP_append, List.countP_singleton, countIf_eq]
  split <;> simp

theorem countP_eraseIdx {α : Type*} (p : α → Bool) {l : List α} {i : Nat}
    {a : α} (h : l[i]? = some a) :
    ((l.countP p : Nat) : Int) = (l.eraseIdx i).countP p + countIf (p a) := by
  obtain ⟨hi, rfl⟩ := List.getElem?_eq_some_iff.mp h
  rw [← (List.getElem_cons_eraseIdx_perm hi).countP_eq p, List.countP_cons,
    countIf_eq]
  split <;> simp

/-- An open that fails changes nothing. -/
theorem scullPOpen_cases (n : Nat) (dev : ScullPipe) (c : OpenCall) :
    (scullPOpen n dev c).1 ≠ .ok ∧ (scullPOpen n dev c).2 = dev ∨
      c.signal = false ∧ (scullPOpen n dev c).1 = .ok := by
  rw [scullPOpen]
  split
  · exact Or.inl ⟨by simp, rfl⟩
  next hsignal =>
  have hfalse : c.signal = false := Bool.eq_false_iff.mpr hsignal
  split
  · exact Or.inr ⟨hfalse, rfl⟩
  split
  · exact Or.inr ⟨hfalse, rfl⟩
  · exact Or.inl ⟨by simp, rfl⟩

/-- The state after an open that succeeds. -/
theorem Session.opens_ok {c : OpenCall}
    (hok : (scullPOpen n s.pipe.dev c).1 = .ok) :
    ∃ dev₀ : ScullPipe, dev₀.buffer.isSome ∧
      dev₀.nreaders = s.pipe.dev.nreaders ∧
      dev₀.nwriters = s.pipe.dev.nwriters ∧
      s.opens n c = ⟨⟨dev₀.opened n c.mode, s.pipe.accepted, s.pipe.returned⟩,
        s.files ++ [c.mode]⟩ := by
  have hopen : scullPOpen n s.pipe.dev c =
      (.ok, (scullPOpen n s.pipe.dev c).2) := Prod.ext hok rfl
  obtain ⟨dev₀, hbuf, hr, hw, heq⟩ := scullPOpen_ok hopen
  refine ⟨dev₀, hbuf, hr, hw, ?_⟩
  rw [Session.opens, ← heq, hok]
  rfl

/-- An open fails and changes nothing, or gets the lock and succeeds. -/
theorem Session.opens_cases (n : Nat) (s : Session) (c : OpenCall) :
    s.opens n c = s ∨
      c.signal = false ∧ (scullPOpen n s.pipe.dev c).1 = .ok := by
  rcases scullPOpen_cases n s.pipe.dev c with ⟨hfail, hsame⟩ | hok
  · left
    rw [Session.opens, hsame, if_neg hfail]
  · exact Or.inr hok

theorem Session.call_cases {i : Nat} {c : Call}
    (hs : s.step n (.call i c) = some t) :
    ∃ mode pipe, s.files[i]? = some mode ∧ c.allowed mode = true ∧
      s.pipe.call c = some pipe ∧ t = ⟨pipe, s.files⟩ := by
  rw [Session.step] at hs
  cases hfile : s.files[i]? with
  | none =>
      rw [hfile] at hs
      cases hs
  | some mode =>
      rw [hfile] at hs
      obtain ⟨hallow, hs⟩ := Option.ite_none_right_eq_some.mp hs
      obtain ⟨pipe, hpipe, rfl⟩ := Option.map_eq_some_iff.mp hs
      exact ⟨mode, pipe, rfl, hallow, hpipe, rfl⟩

theorem call_counts {s t : Traffic} {c : Call} (hc : s.call c = some t) :
    t.dev.nreaders = s.dev.nreaders ∧ t.dev.nwriters = s.dev.nwriters := by
  cases c with
  | read c =>
      cases hc
      rw [scullPRead]
      split_ifs <;> exact ⟨rfl, rfl⟩
  | write c =>
      cases hc
      rw [scullPWrite]
      split
      · exact ⟨rfl, rfl⟩
      split
      · exact ⟨rfl, rfl⟩
      · cases c.fault <;> exact ⟨rfl, rfl⟩

theorem release_counts (dev : ScullPipe) (mode : Mode) :
    (scullPRelease dev mode).nreaders = (dev.uncount mode).nreaders ∧
      (scullPRelease dev mode).nwriters = (dev.uncount mode).nwriters := by
  rw [scullPRelease]
  split <;> exact ⟨rfl, rfl⟩

/-- While others stay, a release only counts. -/
theorem release_inUse {mode : Mode} (huse : (scullPRelease dev mode).InUse) :
    scullPRelease dev mode = dev.uncount mode := by
  obtain ⟨hr, hw⟩ := release_counts dev mode
  rw [ScullPipe.InUse, hr, hw] at huse
  exact if_neg (by omega)

theorem ScullPipe.Has.uncount (h : dev.Has q) (mode : Mode) :
    (dev.uncount mode).Has q := by
  rcases h with h | ⟨h, hq⟩
  · exact Or.inl ⟨h.buffer, h.ring, h.room⟩
  · exact Or.inr ⟨⟨h.buffer, h.size, h.rp, h.wp⟩, hq⟩

theorem Session.release_dev (s : Session) (i : Nat) (mode : Mode) :
    (s.release i mode).pipe.dev = scullPRelease s.pipe.dev mode ∧
      (s.release i mode).files = s.files.eraseIdx i := by
  rw [Session.release]
  split <;> exact ⟨rfl, rfl⟩

/-! ### Counting the files -/

theorem Session.Counted.opens (h : s.Counted) (c : OpenCall) :
    (s.opens n c).Counted := by
  rcases Session.opens_cases n s c with hsame | ⟨-, hok⟩
  · rw [hsame]
    exact h
  obtain ⟨dev₀, -, hr, hw, heq⟩ := Session.opens_ok hok
  rw [heq]
  constructor
  · show dev₀.nreaders + countIf c.mode.read = _
    rw [hr, h.readers]
    exact (countP_concat _ s.files c.mode).symm
  · show dev₀.nwriters + countIf c.mode.write = _
    rw [hw, h.writers]
    exact (countP_concat _ s.files c.mode).symm

theorem Session.Counted.release (h : s.Counted) {i : Nat} {mode : Mode}
    (hfile : s.files[i]? = some mode) : (s.release i mode).Counted := by
  obtain ⟨hdev, hfiles⟩ := s.release_dev i mode
  obtain ⟨hr, hw⟩ := release_counts s.pipe.dev mode
  constructor
  · have hcount := countP_eraseIdx (·.read) hfile
    rw [hdev, hfiles, hr]
    show s.pipe.dev.nreaders - countIf mode.read = _
    rw [h.readers]
    omega
  · have hcount := countP_eraseIdx (·.write) hfile
    rw [hdev, hfiles, hw]
    show s.pipe.dev.nwriters - countIf mode.write = _
    rw [h.writers]
    omega

theorem Session.Counted.step (h : s.Counted) {op : Op}
    (hs : s.step n op = some t) : t.Counted := by
  cases op with
  | opens c =>
      cases hs
      exact h.opens c
  | call i c =>
      obtain ⟨mode, pipe, -, -, hpipe, rfl⟩ := Session.call_cases hs
      obtain ⟨hr, hw⟩ := call_counts hpipe
      exact ⟨hr.trans h.readers, hw.trans h.writers⟩
  | release i =>
      obtain ⟨mode, hfile, rfl⟩ := Option.map_eq_some_iff.mp hs
      exact h.release hfile

/-- A file that allows the call is counted. -/
theorem Session.Counted.inUse (h : s.Counted) {i : Nat} {mode : Mode}
    {c : Call} (hfile : s.files[i]? = some mode)
    (hc : c.allowed mode = true) : s.pipe.dev.InUse := by
  have hmem := List.mem_of_getElem? hfile
  rw [ScullPipe.InUse, h.readers, h.writers]
  cases c with
  | read c =>
      have hpos : 0 < s.files.countP (·.read) :=
        List.countP_pos_iff.mpr ⟨mode, hmem, hc⟩
      omega
  | write c =>
      have hpos : 0 < s.files.countP (·.write) :=
        List.countP_pos_iff.mpr ⟨mode, hmem, hc⟩
      omega

theorem countIf_nonneg (b : Bool) : 0 ≤ countIf b := by
  cases b <;> decide

theorem ScullPipe.InUse.opened {dev₀ : ScullPipe} (h : dev.InUse)
    (hr : dev₀.nreaders = dev.nreaders) (hw : dev₀.nwriters = dev.nwriters)
    (n : Nat) (mode : Mode) : (dev₀.opened n mode).InUse := by
  have hread := countIf_nonneg mode.read
  have hwrite := countIf_nonneg mode.write
  rw [ScullPipe.InUse] at h
  show 0 < dev₀.nreaders + countIf mode.read +
    (dev₀.nwriters + countIf mode.write)
  omega

/-- A device that is in use after a release was so before. -/
theorem inUse_of_release {mode : Mode}
    (h : (scullPRelease dev mode).InUse) : dev.InUse := by
  have hread := countIf_nonneg mode.read
  have hwrite := countIf_nonneg mode.write
  have hcounts : 0 < dev.nreaders - countIf mode.read +
      (dev.nwriters - countIf mode.write) := by
    rw [release_inUse h] at h
    exact h
  rw [ScullPipe.InUse]
  omega

/-! ### Keeping the bytes -/

theorem Session.Inv.counted (h : s.Inv) : s.Counted := ⟨h.readers, h.writers⟩

theorem Session.Inv.opens (h : s.Inv) {c : OpenCall}
    (hfinds : FindsEmpty s (.opens c)) : (s.opens n c).Inv := by
  rcases Session.opens_cases n s c with hsame | ⟨hsignal, hok⟩
  · rw [hsame]
    exact h
  obtain ⟨hreaders, hwriters⟩ := h.counted.opens (n := n) c
  obtain ⟨dev₀, hbuf, hr, hw, heq⟩ := Session.opens_ok hok
  have hnothing : s.pipe.accepted = s.pipe.returned ++ [] := by
    rw [List.append_nil]
    by_cases huse : s.pipe.dev.InUse
    · obtain ⟨q, hacc, hq⟩ := h.used huse
      have hnil := hq.rp_eq_wp.mp (hfinds hsignal huse)
      rw [hacc, hnil, List.append_nil]
    · obtain ⟨hacc, hret⟩ := h.unused huse
      rw [hacc, hret]
  refine ⟨hreaders, hwriters, ?_, ?_⟩
  · intro _
    rw [heq]
    exact ⟨[], hnothing, has_opened hbuf⟩
  · intro hunused
    rw [heq] at hunused ⊢
    exact h.unused fun huse => hunused (huse.opened hr hw n c.mode)

theorem Session.Inv.call (h : s.Inv) {i : Nat} {c : Call}
    (hs : s.step n (.call i c) = some t) : t.Inv := by
  obtain ⟨hreaders, hwriters⟩ := h.counted.step hs
  obtain ⟨mode, pipe, hfile, hallow, hpipe, rfl⟩ := Session.call_cases hs
  have huse := h.counted.inUse hfile hallow
  obtain ⟨q, hacc, hq⟩ := h.used huse
  obtain ⟨hr, hw⟩ := call_counts hpipe
  refine ⟨hreaders, hwriters, fun _ => hq.call hacc hpipe,
    fun hunused => absurd ?_ hunused⟩
  show 0 < pipe.dev.nreaders + pipe.dev.nwriters
  rw [hr, hw]
  exact huse

theorem Session.Inv.release (h : s.Inv) {i : Nat} {mode : Mode}
    (hfile : s.files[i]? = some mode) : (s.release i mode).Inv := by
  obtain ⟨hreaders, hwriters⟩ := h.counted.release hfile
  rw [Session.release] at hreaders hwriters ⊢
  split at hreaders
  · next huse =>
      rw [if_pos huse] at hwriters ⊢
      refine ⟨hreaders, hwriters, fun _ => ?_,
        fun hunused => absurd huse hunused⟩
      obtain ⟨q, hacc, hq⟩ := h.used (inUse_of_release huse)
      refine ⟨q, hacc, ?_⟩
      rw [release_inUse huse]
      exact hq.uncount mode
  · next hunused =>
      rw [if_neg hunused] at hwriters ⊢
      exact ⟨hreaders, hwriters, fun huse => absurd huse hunused,
        fun _ => ⟨rfl, rfl⟩⟩

theorem Session.Inv.step (h : s.Inv) {op : Op} (hfinds : FindsEmpty s op)
    (hs : s.step n op = some t) : t.Inv := by
  cases op with
  | opens c =>
      cases hs
      exact h.opens hfinds
  | call i c => exact h.call hs
  | release i =>
      obtain ⟨mode, hfile, rfl⟩ := Option.map_eq_some_iff.mp hs
      exact h.release hfile

/-- An open that finds unread bytes loses them. -/
theorem Session.Inv.findsEmpty (h : s.Inv) {op : Op}
    (hs : s.step n op = some t) (hkeeps : Keeps t) : FindsEmpty s op := by
  cases op with
  | call i c => trivial
  | release i => trivial
  | opens c =>
      intro hsignal huse
      cases hs
      obtain ⟨q, hacc, hq⟩ := h.used huse
      have hok : (scullPOpen n s.pipe.dev c).1 = .ok := by
        rw [scullPOpen, hsignal, hq.buffer]
        rfl
      obtain ⟨dev₀, hbuf, hr, hw, heq⟩ := Session.opens_ok hok
      have hafter : (s.opens n c).pipe.dev.InUse := by
        rw [heq]
        exact huse.opened hr hw n c.mode
      have hnothing := (hkeeps hafter).2
      rw [heq] at hnothing
      rw [(has_opened hbuf).unread_eq, List.append_nil] at hnothing
      rw [hq.rp_eq_wp]
      exact List.append_right_eq_self.mp (hacc.symm.trans hnothing)

/-- Every run of opens, reads, writes and releases keeps the accepted bytes
while the device is in use, if and only if no open of a device in use finds
unread bytes. -/
theorem scullpipe_keeps_iff (scull_p_buffer : Nat) (ops : List Op) :
    Always (Session.step scull_p_buffer) Keeps Session.init ops ↔
      Along (Session.step scull_p_buffer) FindsEmpty Session.init ops :=
  always_iff_along (fun _ h => h.keeps)
    (fun _ _ _ h hfinds hs => h.step hfinds hs)
    (fun _ _ _ h hs hkeeps => h.findsEmpty hs hkeeps) inv_init

/-- A writer, and then a reader, who opens the device when two bytes are in
it. -/
def lateReader : List Op :=
  [ .opens (openCall ⟨false, true⟩),
    .call 0 (.write ⟨[1, 2], true, false, none⟩),
    .opens (openCall ⟨true, false⟩) ]

/-- The late reader finds nothing. -/
theorem late_reader_loses : ∃ s,
    exec (Session.step 4000) Session.init lateReader = some s ∧
      s.pipe.dev.nreaders = 1 ∧ s.pipe.dev.nwriters = 1 ∧
      s.pipe.accepted = [1, 2] ∧ s.pipe.returned = [] ∧
      s.pipe.dev.unread = [] ∧ ¬ Keeps s := by
  have hrun : (exec (Session.step 4000) Session.init lateReader).map
      (fun s => (s.pipe.dev.nreaders, s.pipe.dev.nwriters, s.pipe.accepted,
        s.pipe.returned, s.pipe.dev.unread)) =
      some (1, 1, [1, 2], [], []) := by
    decide +kernel
  obtain ⟨s, hs, hres⟩ := Option.map_eq_some_iff.mp hrun
  simp only [Prod.mk.injEq] at hres
  obtain ⟨hr, hw, hacc, hret, hunread⟩ := hres
  refine ⟨s, hs, hr, hw, hacc, hret, hunread, ?_⟩
  intro hkeeps
  have huse : s.pipe.dev.InUse := by
    rw [ScullPipe.InUse, hr, hw]
    decide
  have hall := (hkeeps huse).2
  rw [hacc, hret, hunread] at hall
  cases hall

end LearningLinux.Scull
