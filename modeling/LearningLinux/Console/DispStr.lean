import Mathlib.Algebra.Group.Int.Defs
import Mathlib.Algebra.Group.Nat.Defs
import Mathlib.Data.List.Infix
import Mathlib.Data.Nat.Basic
import LearningLinux.Lib.StateExcept

/-!
# `disp_str` and `disp_color_str`

The two functions of `kliba.asm` differ in the attribute byte only. They print
from `disp_pos` on and never ask how large the video memory is; what does stop
them is the limit of the segment in `gs`, which is twice as large: a character
beyond it is a general protection fault. That is an error here, with the
registers as they were.

Whatever is printed, `disp_pos` is even, and a newline moves it to the next
line, up to 2^31, where `jl` takes it for a negative number (`Law`). A text
that is printed from cell 0 on, in lines of 80 cells, has its place there
(`advance`), and `disp_pos` is twice that place. So whether the output stays
in the video memory can be told from the text (`Fits`). A store that is wrong
stays in the trace, which only grows, so a text that does not fit is wrong at
its first character that does not.
-/

namespace LearningLinux.Console

open LearningLinux.Lib

def V_MEM_SIZE : Nat := 0x8000

/-- The limit of `LABEL_DESC_VIDEO`. -/
def videoLimit : Nat := 0xffff

/-- What has been done: words stored to `gs:edi`, and newlines. -/
inductive Event where
  | stored (edi : Nat) (ah al : UInt8)
  | newline (old new : Nat)
deriving DecidableEq, Repr

structure State where
  disp_pos : Nat
  trace : List Event

/-- `edi` in the loop, and the trace. -/
structure Regs where
  edi : Nat
  trace : List Event

/-- A register as `jl` sees it. -/
def signed (v : Nat) : Int := if v < 2 ^ 31 then v else v - 2 ^ 32

theorem le_of_signed {eax : Nat} (h : ¬ signed eax < 160) : 160 ≤ eax := by
  rw [signed] at h
  split at h <;> omega

/-- `.sub_loop` -/
def subLoop (eax : Nat) : Nat :=
  if signed eax < 160 then eax else subLoop (eax - 160)
termination_by eax
decreasing_by
  have hle := le_of_signed ‹_›
  omega

/-- `.stop`: `add edi,160`, `sub edi,eax` -/
def stop (edi eax : Nat) : Nat :=
  ((edi + 160) % 2 ^ 32 + (2 ^ 32 - eax)) % 2 ^ 32

/-- One character of the string, or the fault in storing it. -/
def put (ah al : UInt8) (r : Regs) : Except Regs Regs :=
  if al = 0x0a then
    let new := stop r.edi (subLoop r.edi)
    .ok ⟨new, r.trace ++ [Event.newline r.edi new]⟩
  else if r.edi + 1 ≤ videoLimit then
    .ok ⟨(r.edi + 2) % 2 ^ 32, r.trace ++ [Event.stored r.edi ah al]⟩
  else .error r

/-- The loop from `.1` on. -/
def dispLoop (ah : UInt8) : List UInt8 → Regs → Except Regs Regs
  | [], r => .ok r
  | al :: info, r =>
      if al = 0 then .ok r else put ah al r >>= dispLoop ah info

def disp (ah : UInt8) (info : List UInt8) (c : State) : Except Regs State :=
  dispLoop ah info ⟨c.disp_pos, c.trace⟩ >>= fun r => .ok ⟨r.edi, r.trace⟩

def dispStr (info : List UInt8) : State → Except Regs State := disp 0x0f info

/-- The attribute is the low byte of the argument. -/
def dispColorStr (info : List UInt8) (color : UInt32) :
    State → Except Regs State := disp color.toUInt8 info

inductive Call where
  | disp_str (info : List UInt8)
  | disp_color_str (info : List UInt8) (color : UInt32)

def Call.run : Call → State → Except Regs State
  | .disp_str info => dispStr info
  | .disp_color_str info color => dispColorStr info color

def run : List Call → State → Except Regs State
  | [], c => .ok c
  | call :: calls, c => call.run c >>= run calls

def start : State := ⟨0, []⟩

def State.regs (c : State) : Regs := ⟨c.disp_pos, c.trace⟩

/-- Where the calls have got to, at the end or at the fault. -/
def ended : Except Regs State → Regs
  | .ok c => c.regs
  | .error r => r

/-! ## The text and its place -/

/-- The place after a character, in cells. -/
def advance (place : Nat) (al : UInt8) : Nat :=
  if al = 0x0a then
    if 2 * place < 2 ^ 31 then (place / 80 + 1) * 80 else 80
  else place + 1

/-- A character has a cell of the video memory. -/
def Allowed (place : Nat) (al : UInt8) : Prop :=
  al = 0x0a ∨ 2 * place < V_MEM_SIZE

instance (place : Nat) (al : UInt8) : Decidable (Allowed place al) :=
  inferInstanceAs (Decidable (_ ∨ _))

def Fits : Nat → List UInt8 → Prop
  | _, [] => True
  | place, al :: text => Allowed place al ∧ Fits (advance place al) text

def fitsDecidable : ∀ place text, Decidable (Fits place text)
  | _, [] => .isTrue trivial
  | place, al :: text =>
      have := fitsDecidable (advance place al) text
      inferInstanceAs (Decidable (_ ∧ _))

instance (place : Nat) (text : List UInt8) : Decidable (Fits place text) :=
  fitsDecidable place text

/-- The string up to its end. -/
def shown (info : List UInt8) : List UInt8 := info.takeWhile (· ≠ 0)

def Call.info : Call → List UInt8
  | .disp_str info => info
  | .disp_color_str info _ => info

def Call.ah : Call → UInt8
  | .disp_str _ => 0x0f
  | .disp_color_str _ color => color.toUInt8

/-- All that is printed. -/
def text (calls : List Call) : List UInt8 :=
  calls.flatMap fun call => shown call.info

/-! ## What is wanted -/

/-- `new` is the start of the next line. -/
def NextLine (old new : Nat) : Prop :=
  160 ∣ new ∧ old < new ∧ ∀ m, 160 ∣ m → old < m → new ≤ m

/-- Every position is even, and a newline moves to the next line. -/
def Event.Law : Event → Prop
  | .stored edi _ _ => edi % 2 = 0
  | .newline old new =>
      old % 2 = 0 ∧ new % 2 = 0 ∧ (old < 2 ^ 31 → NextLine old new)

def Event.Inside : Event → Prop
  | .stored edi _ _ => edi < V_MEM_SIZE
  | .newline _ _ => True

structure Law (r : Regs) : Prop where
  even : r.edi % 2 = 0
  events : ∀ e ∈ r.trace, e.Law

/-- The calls return, with all characters in the video memory. -/
def StaysInside (calls : List Call) : Prop :=
  ∃ c, run calls start = .ok c ∧ ∀ e ∈ c.trace, e.Inside

/-! ## One character -/

theorem subLoop_eq {eax : Nat} (h : eax < 2 ^ 31) :
    subLoop eax = eax % 160 := by
  induction eax using Nat.strongRecOn with
  | ind eax ih =>
      have hsigned : signed eax = eax := if_pos h
      rw [subLoop]
      split
      · next hlt =>
          rw [hsigned] at hlt
          exact (Nat.mod_eq_of_lt (by omega)).symm
      · next hge =>
          rw [hsigned] at hge
          rw [ih (eax - 160) (by omega) (by omega)]
          exact (Nat.mod_eq_sub_mod (by omega)).symm

/-- From 2^31 on, `jl` takes the place for a negative one. -/
theorem subLoop_negative {eax : Nat} (h : 2 ^ 31 ≤ eax) (hlt : eax < 2 ^ 32) :
    subLoop eax = eax := by
  have hsigned : signed eax < 160 := by
    rw [signed, if_neg (by omega)]
    omega
  rw [subLoop, if_pos hsigned]

theorem stop_subLoop {edi : Nat} (h : edi < 2 ^ 31) :
    stop edi (subLoop edi) = (edi / 160 + 1) * 160 := by
  rw [subLoop_eq h, stop]
  omega

theorem stop_negative {edi : Nat} (h : 2 ^ 31 ≤ edi) (hlt : edi < 2 ^ 32) :
    stop edi (subLoop edi) = 160 := by
  rw [subLoop_negative h hlt, stop]
  omega

theorem nextLine_stop {edi : Nat} (h : edi < 2 ^ 31) :
    NextLine edi (stop edi (subLoop edi)) := by
  rw [stop_subLoop h]
  refine ⟨Nat.dvd_mul_left 160 _, by omega, ?_⟩
  rintro m ⟨k, rfl⟩ hm
  omega

/-- The registers, whatever has been printed. -/
structure Lawful (r : Regs) : Prop extends Law r where
  lt : r.edi < 2 ^ 32

/-- The registers while the text fits. -/
structure Placed (place : Nat) (r : Regs) : Prop where
  edi : r.edi = 2 * place
  lt : r.edi < 2 ^ 32
  inside : ∀ e ∈ r.trace, e.Inside

variable {place : Nat} {al ah : UInt8} {r r' : Regs}

theorem put_newline (ah : UInt8) (r : Regs) : put ah 0x0a r =
    .ok ⟨stop r.edi (subLoop r.edi),
      r.trace ++ [Event.newline r.edi (stop r.edi (subLoop r.edi))]⟩ := by
  rw [put, if_pos rfl]

theorem put_lawful (hr : Lawful r) (h : put ah al r = .ok r') : Lawful r' := by
  obtain ⟨⟨heven, hevents⟩, hlt⟩ := hr
  by_cases hal : al = 0x0a
  · subst hal
    rw [put_newline] at h
    cases h
    have hnew : stop r.edi (subLoop r.edi) % 2 = 0 ∧
        stop r.edi (subLoop r.edi) < 2 ^ 32 := by
      by_cases hpos : r.edi < 2 ^ 31
      · rw [stop_subLoop hpos]
        omega
      · rw [stop_negative (by omega) hlt]
        omega
    refine ⟨⟨hnew.1, List.forall_mem_append.mpr ⟨hevents, ?_⟩⟩, hnew.2⟩
    exact List.forall_mem_singleton.mpr ⟨heven, hnew.1, nextLine_stop⟩
  · rw [put, if_neg hal] at h
    split at h
    · next hlimit =>
        cases h
        rw [videoLimit] at hlimit
        refine ⟨⟨?_, List.forall_mem_append.mpr ⟨hevents, ?_⟩⟩, ?_⟩
        · show (r.edi + 2) % 2 ^ 32 % 2 = 0
          omega
        · exact List.forall_mem_singleton.mpr heven
        · exact Nat.mod_lt _ (by decide)
    · cases h

theorem put_error {e : Regs} (h : put ah al r = .error e) : e = r := by
  rw [put] at h
  split at h
  · cases h
  · split at h
    · cases h
    · cases h
      rfl

/-- A character that is allowed. -/
theorem put_allowed (ah : UInt8) (hr : Placed place r)
    (h : Allowed place al) :
    ∃ r', put ah al r = .ok r' ∧ Placed (advance place al) r' := by
  obtain ⟨hedi, hlt, hinside⟩ := hr
  by_cases hal : al = 0x0a
  · subst hal
    have hnew : stop r.edi (subLoop r.edi) = 2 * advance place 0x0a := by
      rw [advance, if_pos rfl]
      split
      · next hpos =>
          rw [stop_subLoop (by omega)]
          omega
      · next hneg => exact stop_negative (by omega) hlt
    refine ⟨_, put_newline ah r, ⟨hnew, ?_, ?_⟩⟩
    · exact Nat.mod_lt _ (by decide)
    · exact List.forall_mem_append.mpr
        ⟨hinside, List.forall_mem_singleton.mpr trivial⟩
  · have hstore : r.edi < V_MEM_SIZE := hedi ▸ h.resolve_left hal
    have hlimit : r.edi + 1 ≤ videoLimit := by
      rw [V_MEM_SIZE] at hstore
      rw [videoLimit]
      omega
    have hnew : (r.edi + 2) % 2 ^ 32 = 2 * (place + 1) := by
      rw [V_MEM_SIZE] at hstore
      omega
    rw [put, advance, if_neg hal, if_neg hal, if_pos hlimit]
    refine ⟨_, rfl, ⟨hnew, Nat.mod_lt _ (by decide), ?_⟩⟩
    exact List.forall_mem_append.mpr
      ⟨hinside, List.forall_mem_singleton.mpr hstore⟩

/-- One that is not is outside in the trace, if the machine goes on. -/
theorem put_forbidden (hr : Placed place r) (h : ¬ Allowed place al)
    (hr' : put ah al r = .ok r') : ∃ e ∈ r'.trace, ¬ e.Inside := by
  obtain ⟨hal, hplace⟩ := not_or.mp h
  rw [put, if_neg hal] at hr'
  split at hr'
  · cases hr'
    refine ⟨_, List.mem_append_right _ (List.mem_singleton.mpr rfl), ?_⟩
    show ¬ r.edi < V_MEM_SIZE
    rw [hr.edi]
    exact hplace
  · cases hr'

theorem put_trace (h : put ah al r = .ok r') : r.trace ⊆ r'.trace := by
  rw [put] at h
  split at h
  · cases h
    exact List.subset_append_left _ _
  · split at h
    · cases h
      exact List.subset_append_left _ _
    · cases h

/-! ## One call -/

variable {info : List UInt8}

theorem shown_cons (hal : al ≠ 0) : shown (al :: info) = al :: shown info :=
  List.takeWhile_cons_of_pos (decide_eq_true hal)

theorem dispLoop_cons (hal : al ≠ 0) :
    dispLoop ah (al :: info) r = put ah al r >>= dispLoop ah info := by
  rw [dispLoop, if_neg hal]

theorem dispLoop_lawful (hr : Lawful r) :
    (∀ r', dispLoop ah info r = .ok r' → Lawful r') ∧
      ∀ e, dispLoop ah info r = .error e → Lawful e := by
  induction info generalizing r with
  | nil =>
      refine ⟨fun r' h => ?_, fun e h => (by cases h)⟩
      cases h
      exact hr
  | cons al info ih =>
      by_cases hal : al = 0
      · subst hal
        refine ⟨fun r' h => ?_, fun e h => (by cases h)⟩
        cases h
        exact hr
      · rw [dispLoop_cons hal]
        cases hput : put ah al r with
        | ok r₁ => exact ih (put_lawful hr hput)
        | error e' =>
            rw [put_error hput]
            refine ⟨fun r' h => (by cases h), fun e h => ?_⟩
            cases h
            exact hr

theorem dispLoop_fits (ah : UInt8) (hr : Placed place r)
    (h : Fits place (shown info)) :
    ∃ r', dispLoop ah info r = .ok r' ∧
      Placed ((shown info).foldl advance place) r' := by
  induction info generalizing place r with
  | nil => exact ⟨r, rfl, hr⟩
  | cons al info ih =>
      by_cases hal : al = 0
      · subst hal
        exact ⟨r, rfl, hr⟩
      · rw [shown_cons hal] at h ⊢
        obtain ⟨r₁, hput, hr₁⟩ := put_allowed ah hr h.1
        obtain ⟨r', hloop, hr'⟩ := ih hr₁ h.2
        exact ⟨r', by rw [dispLoop_cons hal, hput]; exact hloop, hr'⟩

theorem dispLoop_trace (h : dispLoop ah info r = .ok r') :
    r.trace ⊆ r'.trace := by
  induction info generalizing r with
  | nil =>
      cases h
      exact List.Subset.refl _
  | cons al info ih =>
      by_cases hal : al = 0
      · subst hal
        cases h
        exact List.Subset.refl _
      · rw [dispLoop_cons hal, except_bind_ok] at h
        obtain ⟨r₁, hput, hloop⟩ := h
        exact List.Subset.trans (put_trace hput) (ih hloop)

theorem dispLoop_unfit (hr : Placed place r) (h : ¬ Fits place (shown info))
    (hr' : dispLoop ah info r = .ok r') : ∃ e ∈ r'.trace, ¬ e.Inside := by
  induction info generalizing place r with
  | nil => exact absurd trivial h
  | cons al info ih =>
      by_cases hal : al = 0
      · subst hal
        exact absurd trivial h
      · rw [shown_cons hal] at h
        rw [dispLoop_cons hal, except_bind_ok] at hr'
        obtain ⟨r₁, hput, hloop⟩ := hr'
        by_cases hallowed : Allowed place al
        · obtain ⟨r₂, hput₂, hr₂⟩ := put_allowed ah hr hallowed
          cases hput.symm.trans hput₂
          exact ih hr₂ (fun hfits => h ⟨hallowed, hfits⟩) hloop
        · obtain ⟨e, he, hwrong⟩ := put_forbidden hr hallowed hput
          exact ⟨e, dispLoop_trace hloop he, hwrong⟩

/-! ## All calls -/

variable {call : Call} {calls : List Call} {c c' : State}

theorem Call.run_eq (call : Call) (c : State) : call.run c =
    dispLoop call.ah call.info c.regs >>= fun r => .ok ⟨r.edi, r.trace⟩ := by
  cases call <;> rfl

theorem Call.run_ok : call.run c = .ok c' ↔
    dispLoop call.ah call.info c.regs = .ok c'.regs := by
  rw [Call.run_eq, except_bind_ok]
  constructor
  · rintro ⟨r, hr, heq⟩
    cases heq
    exact hr
  · intro hr
    exact ⟨c'.regs, hr, rfl⟩

theorem run_lawful (hc : Lawful c.regs) : Lawful (ended (run calls c)) := by
  induction calls generalizing c with
  | nil => exact hc
  | cons call calls ih =>
      have hok : ∀ r', dispLoop call.ah call.info c.regs = .ok r' → Lawful r' :=
        (dispLoop_lawful hc).1
      have herror : ∀ e, dispLoop call.ah call.info c.regs = .error e →
          Lawful e := (dispLoop_lawful hc).2
      rw [run, Call.run_eq]
      cases hloop : dispLoop call.ah call.info c.regs with
      | ok r => exact ih (c := ⟨r.edi, r.trace⟩) (hok r hloop)
      | error e => exact herror e hloop

theorem call_fits (hc : Placed place c.regs)
    (h : Fits place (shown call.info)) : ∃ c', call.run c = .ok c' ∧
      Placed ((shown call.info).foldl advance place) c'.regs := by
  obtain ⟨r, hr, hin⟩ := dispLoop_fits call.ah hc h
  exact ⟨⟨r.edi, r.trace⟩, Call.run_ok.mpr hr, hin⟩

theorem fits_append {text text' : List UInt8} :
    Fits place (text ++ text') ↔
      Fits place text ∧ Fits (text.foldl advance place) text' := by
  induction text generalizing place with
  | nil => exact ⟨fun h => ⟨trivial, h⟩, And.right⟩
  | cons al text ih => exact (and_congr_right fun _ => ih).trans and_assoc.symm

theorem run_fits (hc : Placed place c.regs) (h : Fits place (text calls)) :
    ∃ c', run calls c = .ok c' ∧
      Placed ((text calls).foldl advance place) c'.regs := by
  induction calls generalizing place c with
  | nil => exact ⟨c, rfl, hc⟩
  | cons call calls ih =>
      obtain ⟨hone, hrest⟩ := fits_append.mp h
      obtain ⟨c₁, hrun, hc₁⟩ := call_fits hc hone
      obtain ⟨c', hall, hc'⟩ := ih hc₁ hrest
      refine ⟨c', by rw [run, hrun]; exact hall, ?_⟩
      rwa [← List.foldl_append] at hc'

theorem run_trace (h : run calls c = .ok c') : c.trace ⊆ c'.trace := by
  induction calls generalizing c with
  | nil =>
      cases h
      exact List.Subset.refl _
  | cons call calls ih =>
      obtain ⟨c₁, hrun, hall⟩ := except_bind_ok.mp h
      exact List.Subset.trans (dispLoop_trace (Call.run_ok.mp hrun)) (ih hall)

theorem run_unfit (hc : Placed place c.regs) (h : ¬ Fits place (text calls))
    (hrun : run calls c = .ok c') : ∃ e ∈ c'.trace, ¬ e.Inside := by
  induction calls generalizing place c with
  | nil => exact absurd trivial h
  | cons call calls ih =>
      obtain ⟨c₁, hone, hall⟩ := except_bind_ok.mp hrun
      by_cases hfits : Fits place (shown call.info)
      · obtain ⟨c₂, hone₂, hc₂⟩ := call_fits hc hfits
        cases hone.symm.trans hone₂
        exact ih hc₂ (fun hrest => h (fits_append.mpr ⟨hfits, hrest⟩)) hall
      · obtain ⟨e, he, hout⟩ :=
          dispLoop_unfit hc hfits (Call.run_ok.mp hone)
        exact ⟨e, run_trace hall he, hout⟩

theorem start_placed : Placed 0 start.regs := ⟨rfl, by decide, nofun⟩

theorem start_lawful : Lawful start.regs := ⟨⟨rfl, nofun⟩, by decide⟩

theorem not_staysInside (h : ¬ Fits 0 (text calls)) : ¬ StaysInside calls := by
  intro ⟨c, hrun, hinside⟩
  obtain ⟨e, he, hout⟩ := run_unfit start_placed h hrun
  exact hout (hinside e he)

/-- Whatever is printed, `disp_pos` is even and a newline moves to the next
line; the output stays in the video memory exactly if the text fits. -/
theorem staysInside_iff (calls : List Call) :
    Law (ended (run calls start)) ∧
      (StaysInside calls ↔ Fits 0 (text calls)) := by
  refine ⟨(run_lawful start_lawful).toLaw, fun h => ?_, fun h => ?_⟩
  · by_contra hfits
    exact not_staysInside hfits h
  · obtain ⟨c, hrun, hc⟩ := run_fits start_placed h
    exact ⟨c, hrun, hc.inside⟩

/-- A letter below the last line. -/
theorem not_staysInside_lines :
    ¬ StaysInside [Call.disp_str (List.replicate 205 0x0a ++ [0x41])] :=
  not_staysInside (by decide +kernel)

end LearningLinux.Console
