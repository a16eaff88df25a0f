import LearningLinux.TimerList.Represent

/-!
# What the four operations do to the list of timers

Each operation of the pointer code refines a function on lists:
`insertList` for the private `add_timer`, `addList` and `adjustList` for the
two that call it, erasing for `del_timer`, dropping a prefix for `tick`. The
list functions answer `none` exactly where the code dereferences a null
pointer, so the refinement is an equality of outcomes and not only of
results.

`insertList` is what the private helper really does. Its loop goes on while
the next node expires no earlier than the timer, where the search of a
sorted list goes on while it expires earlier; so the timer lands behind the
first node or behind the second one, whatever the list.
-/

namespace LearningLinux.TimerList

open SortTimerLst

variable {s : SortTimerLst} {l pre post : List Nat} {a b t x y : Nat}

/-! ## The list functions -/

/-- The private `add_timer` of timer `a`, on the list `l`. -/
def insertList (ex : Nat → Int) (a : Nat) : List Nat → Option (List Nat)
  | x :: y :: rest =>
      if ex x < ex a ∧ ex a ≤ ex y then
        match rest with
        | [] => none
        | z :: rest => some (x :: y :: a :: z :: rest)
      else some (x :: a :: y :: rest)
  | _ => none

def addList (ex : Nat → Int) (a : Nat) : List Nat → Option (List Nat)
  | [] => some [a]
  | x :: rest =>
      if ex a < ex x then some (a :: x :: rest) else insertList ex a (x :: rest)

/-- The part of a list behind `a`. -/
def after (a : Nat) : List Nat → List Nat
  | [] => []
  | x :: l => if x = a then l else after a l

def adjustList (ex : Nat → Int) (a : Nat) (l : List Nat) : Option (List Nat) :=
  match after a l with
  | [] => some l
  | n :: _ => if ex a < ex n then some l else insertList ex a (l.erase a)

theorem after_append (h : a ∉ pre) : after a (pre ++ a :: post) = post := by
  induction pre with
  | nil => rw [List.nil_append, after, if_pos rfl]
  | cons x pre ih =>
      simp only [List.mem_cons, not_or] at h
      rw [List.cons_append, after, if_neg (Ne.symm h.1), ih h.2]

/-- The outcome `r` of the code is the outcome `o` of the list function. -/
def Refines (s : SortTimerLst) (r : Option SortTimerLst)
    (o : Option (List Nat)) : Prop :=
  match o with
  | none => r = none
  | some l => ∃ s', r = some s' ∧ Represents s' l ∧ SameTimers s s'

theorem Refines.of_same {s s' : SortTimerLst} {r : Option SortTimerLst}
    {o : Option (List Nat)} (hs : SameTimers s s') (h : Refines s' r o) :
    Refines s r o := by
  cases o with
  | none => exact h
  | some l =>
      obtain ⟨s'', hr, hrep, hsame⟩ := h
      exact ⟨s'', hr, hrep, hs.trans hsame⟩

/-! ## The private `add_timer` -/

/-- What the private `add_timer` does once its loop has found `tmp`. -/
def linkAfter (s : SortTimerLst) (timer tmp : Option Nat) :
    Option SortTimerLst := do
  let t ← s.deref tmp
  let s₁ ← s.setNext timer t.next
  let s₂ ← s₁.setPrev timer tmp
  let s₃ ← s₂.setNext tmp timer
  let u ← s₃.deref timer
  s₃.setPrev u.next timer

theorem addTimerFrom_eq (timer header : Option Nat) :
    addTimerFrom s timer header =
      (findTmp s timer 2 s.head).bind (linkAfter s timer) := rfl

/-- The state before the last write of `linkAfter`. -/
def linked (s : SortTimerLst) (a t : Nat) : SortTimerLst :=
  ((s.nexted a (s.nxOf t)).preved a (some t)).nexted t (some a)

theorem linkAfter_eq (ha : s.Live a) (ht : s.Live t) (hne : a ≠ t) :
    linkAfter s (some a) (some t) =
      (linked s a t).setPrev (s.nxOf t) (some a) := by
  have hlive : ∀ x, (linked s a t).Live x ↔ s.Live x := by
    intro x
    simp only [linked, live_nexted, live_preved]
  have hnx : (linked s a t).nxOf a = s.nxOf t := by
    rw [linked, nxOf_nexted_ne hne, nxOf_preved, nxOf_nexted_self ha]
  rw [linkAfter, deref_of_live ht]
  simp only [Option.bind_eq_bind, Option.bind_some]
  rw [setNext_eq ha, Option.bind_some, setPrev_eq (live_nexted.mpr ha),
    Option.bind_some, setNext_eq (live_preved.mpr (live_nexted.mpr ht)),
    Option.bind_some]
  show ((linked s a t).deref (some a)).bind _ = _
  rw [deref_of_live ((hlive a).mpr ha), Option.bind_some, hnx]
  rfl

/-- Behind the last node there is no next node whose `prev` to write. -/
theorem linkAfter_last (h : Represents s (pre ++ [t])) (ha : s.Live a)
    (hnew : a ∉ pre ++ [t]) : linkAfter s (some a) (some t) = none := by
  have hne : a ≠ t := fun he => hnew (by simp [he])
  have hnx : s.nxOf t = none := h.links.at.2
  rw [linkAfter_eq ha (h.live t (by simp)) hne, hnx]
  rfl

theorem linkAfter_inner (h : Represents s (pre ++ t :: b :: post)) (ha : s.Live a)
    (hnew : a ∉ pre ++ t :: b :: post)
    (hcount : (pre ++ t :: b :: post).length + 1 ≤ s.numObjects) :
    Refines s (linkAfter s (some a) (some t))
      (some (pre ++ t :: a :: b :: post)) := by
  have hnd := h.nodup
  have ht : s.Live t := h.live t (by simp)
  have hb : s.Live b := h.live b (by simp)
  have hat : a ≠ t := fun he => hnew (by simp [he])
  have hab : a ≠ b := fun he => hnew (by simp [he])
  have hbt : b ≠ t := by
    rintro rfl
    simp [List.nodup_append] at hnd
  have hnx : s.nxOf t = some b := h.links.at.2
  have hlink : linkAfter s (some a) (some t) =
      some ((linked s a t).preved b (some a)) := by
    rw [linkAfter_eq ha ht hat, hnx]
    exact setPrev_eq (by simpa [linked] using hb)
  refine ⟨_, hlink, ⟨?_, ?_, ?_, ?_, ?_, ?_⟩, ?_, ?_, ?_⟩
  · simp only [List.nodup_append, List.nodup_cons, List.mem_append,
      List.mem_cons, not_or] at hnd hnew ⊢
    grind
  · intro x hx
    have : x = a ∨ x ∈ pre ++ t :: b :: post := by
      simp only [List.mem_append, List.mem_cons] at hx ⊢
      tauto
    simp only [linked, live_nexted, live_preved]
    rcases this with rfl | hx
    · exact ha
    · exact h.live x hx
  · rw [preved_head, linked, nexted_head, preved_head, nexted_head, h.head]
    cases pre <;> rfl
  · intro _
    rw [preved_tail, linked, nexted_tail, preved_tail, nexted_tail,
      h.tail (by simp)]
    simp [List.getLast?_append, List.getLast?_cons_cons]
  · have hmem : ∀ x ∈ pre ++ b :: post, x ≠ a ∧ x ≠ t := by
      simp only [List.nodup_append, List.nodup_cons, List.mem_append,
        List.mem_cons, not_or] at hnd hnew ⊢
      grind
    have hmem' : ∀ x ∈ pre ++ t :: post, x ≠ a ∧ x ≠ b := by
      simp only [List.nodup_append, List.nodup_cons, List.mem_append,
        List.mem_cons, not_or] at hnd hnew ⊢
      grind
    refine h.links.insert ?_ ?_ ?_ ?_ (fun x hx => ?_) (fun x hx => ?_)
    · rw [nxOf_preved, linked]
      exact nxOf_nexted_self (by simpa using ht)
    · rw [pvOf_preved_ne hab, linked, pvOf_nexted]
      exact pvOf_preved_self (by simpa using ha)
    · rw [nxOf_preved, linked, nxOf_nexted_ne hat, nxOf_preved,
        nxOf_nexted_self ha, hnx]
    · exact pvOf_preved_self (by simpa [linked] using hb)
    · rw [nxOf_preved, linked, nxOf_nexted_ne (hmem x hx).2, nxOf_preved,
        nxOf_nexted_ne (hmem x hx).1]
    · rw [pvOf_preved_ne (hmem' x hx).2, linked, pvOf_nexted,
        pvOf_preved_ne (hmem' x hx).1, pvOf_nexted]
  · show (pre ++ t :: a :: b :: post).length ≤ s.numObjects
    simp only [List.length_append, List.length_cons] at hcount ⊢
    omega
  · intro x; simp [linked]
  · intro x; simp [linked]
  · rfl

theorem findTmp_single (h : Represents s [x]) :
    findTmp s (some a) 2 (some x) = some (some x) := by
  have htail : some x = s.tail := (h.tail (by simp)).symm
  rw [findTmp, if_pos htail]

/-- Where the loop stops: at the second node if the timer expires after the
first one and no later than the second, else at the first one. -/
theorem findTmp_eq (h : Represents s (x :: y :: post)) (ha : s.Live a) :
    findTmp s (some a) 2 (some x) = some (some
      (if s.expireOf x < s.expireOf a ∧ s.expireOf a ≤ s.expireOf y
        then y else x)) := by
  have hx : some x ≠ s.tail := by
    rw [h.tail (by simp), List.getLast?_cons_cons]
    intro he
    have hmem : x ∈ y :: post := List.mem_of_getLast? he.symm
    exact (List.nodup_cons.mp h.nodup).1 hmem
  have hnx : s.nxOf x = some y := h.links.2.1
  have hstop : s.expireOf a ≤ s.expireOf y →
      findTmp s (some a) 1 (some y) = some (some y) := by
    intro hle
    rw [findTmp]
    split
    · rfl
    · rw [h.deref (by simp), deref_of_live ha]
      show (if s.expireOf y < s.expireOf a then _ else _) = _
      rw [if_neg (by omega)]
  rw [findTmp, if_neg hx, h.deref (by simp), deref_of_live ha]
  show (if s.expireOf x < s.expireOf a then
    (s.deref (s.nxOf x)).bind _ else _) = _
  rw [hnx, h.deref (by simp), Option.bind_some]
  by_cases h₁ : s.expireOf x < s.expireOf a
  · by_cases h₂ : s.expireOf a ≤ s.expireOf y
    · rw [if_pos h₁, if_pos h₂, if_pos ⟨h₁, h₂⟩, hstop h₂]
    · rw [if_pos h₁, if_neg h₂, if_neg (fun hc => h₂ hc.2)]
  · rw [if_neg h₁, if_neg (fun hc => h₁ hc.1)]

theorem addTimerFrom_refines (h : Represents s l) (hl : l ≠ []) (ha : s.Live a)
    (hnew : a ∉ l) (hcount : l.length + 1 ≤ s.numObjects)
    (header : Option Nat) :
    Refines s (addTimerFrom s (some a) header)
      (insertList s.expireOf a l) := by
  rw [addTimerFrom_eq, h.head]
  match l, hl with
  | [x], _ =>
      rw [List.head?_cons, findTmp_single h, Option.bind_some]
      exact @linkAfter_last s [] a x h ha hnew
  | x :: y :: rest, _ =>
      rw [List.head?_cons, findTmp_eq h ha, Option.bind_some]
      show Refines s _ (if s.expireOf x < s.expireOf a ∧
        s.expireOf a ≤ s.expireOf y then _ else _)
      split
      · match rest with
        | [] => exact @linkAfter_last s [x] a y h ha hnew
        | z :: rest => exact @linkAfter_inner s [x] rest a z y h ha hnew hcount
      · exact @linkAfter_inner s [] rest a y x h ha hnew hcount

/-! ## `add_timer` -/

theorem addTimer_refines (h : Represents s l) (ha : s.Live a) (hnew : a ∉ l)
    (hcount : l.length + 1 ≤ s.numObjects) (hnx : s.nxOf a = none)
    (hpv : s.pvOf a = none) :
    Refines s (addTimer s (some a)) (addList s.expireOf a l) := by
  rw [addTimer, if_neg (by simp), h.head]
  match l with
  | [] =>
      rw [List.head?_nil, if_pos rfl]
      refine ⟨_, rfl, ⟨by simp, ?_, rfl, fun _ => rfl, ⟨hpv, hnx, trivial⟩,
        by simpa using hcount⟩, fun _ => rfl, fun _ => Iff.rfl, rfl⟩
      intro x hx
      rw [List.mem_singleton.mp hx]
      exact ha
  | x :: rest =>
      have hx : s.Live x := h.live x (by simp)
      have hax : a ≠ x := fun he => hnew (by simp [he])
      rw [List.head?_cons, if_neg (by simp), deref_of_live ha, deref_of_live hx]
      show Refines s (if s.expireOf a < s.expireOf x then _ else _) _
      rw [addList]
      split
      · rw [setNext_eq ha]
        show Refines s (((s.nexted a (some x)).setPrev
          (s.nexted a (some x)).head (some a)).bind _) _
        rw [nexted_head, h.head, List.head?_cons,
          setPrev_eq (live_nexted.mpr hx), Option.bind_some]
        refine ⟨_, rfl, ⟨List.nodup_cons.mpr ⟨hnew, h.nodup⟩, ?_, rfl, ?_, ?_,
          hcount⟩, ?_, ?_, rfl⟩
        · intro y hy
          show ((s.nexted a (some x)).preved x (some a)).Live y
          rw [live_preved, live_nexted]
          rcases List.mem_cons.mp hy with rfl | hy
          · exact ha
          · exact h.live y hy
        · intro _
          show s.tail = _
          rw [h.tail (by simp), List.getLast?_cons_cons]
        · show Lib.Seg ((s.nexted a (some x)).preved x (some a)).nxOf
            ((s.nexted a (some x)).preved x (some a)).pvOf _ _ _
          refine Lib.seg_cons.mpr ⟨?_, ?_, ?_⟩
          · rw [pvOf_preved_ne hax, pvOf_nexted, hpv]
          · rw [nxOf_preved, nxOf_nexted_self ha]
            rfl
          · refine h.links.setPrev (pvOf_preved_self (live_nexted.mpr hx))
              (fun y hy => ?_) (fun y hy => ?_)
            · have hya : y ≠ a := fun he => hnew (he ▸ hy)
              rw [nxOf_preved, nxOf_nexted_ne hya]
            · have hyx : y ≠ x := fun he =>
                (List.nodup_cons.mp h.nodup).1 (he ▸ hy)
              rw [pvOf_preved_ne hyx, pvOf_nexted]
        · intro y
          show ((s.nexted a (some x)).preved x (some a)).expireOf y = _
          rw [expireOf_preved, expireOf_nexted]
        · intro y
          show ((s.nexted a (some x)).preved x (some a)).Live y ↔ _
          rw [live_preved, live_nexted]
      · exact addTimerFrom_refines h (by simp) ha hnew hcount _

/-! ## Taking a node out

Both `adjust_timer` and `del_timer` unlink a node first; the head, the tail
and an inner node are three different pieces of code. -/

theorem Represents.unlinkHead (h : Represents s (a :: b :: post)) :
    Represents (SortTimerLst.preved { s with head := some b } b none)
      (b :: post) := by
  have hnd := List.nodup_cons.mp h.nodup
  have hb : s.Live b := h.live b (by simp)
  refine ⟨hnd.2, fun x hx => ?_, rfl, fun _ => ?_, ?_, ?_⟩
  · rw [live_preved]
    exact h.live x (by simp [List.mem_cons.mp hx])
  · show s.tail = _
    rw [h.tail (by simp), List.getLast?_cons_cons]
  · refine h.links.2.2.setPrev (pvOf_preved_self hb) (fun x _ => nxOf_preved)
      (fun x hx => pvOf_preved_ne fun he => ?_)
    exact (List.nodup_cons.mp hnd.2).1 (he ▸ hx)
  · exact Nat.le_of_succ_le h.count

theorem Represents.unlinkTail (h : Represents s (pre ++ [b, a])) :
    Represents (SortTimerLst.nexted { s with tail := some b } b none)
      (pre ++ [b]) := by
  have hsplit : pre ++ [b, a] = (pre ++ [b]) ++ [a] := by simp
  rw [hsplit] at h
  have hnd := List.nodup_append.mp h.nodup
  have hb : s.Live b := h.live b (by simp)
  refine ⟨hnd.1, fun x hx => ?_, ?_, fun _ => ?_, ?_, ?_⟩
  · rw [live_nexted]
    exact h.live x (List.mem_append_left _ hx)
  · show s.head = _
    rw [h.head]
    cases pre <;> rfl
  · show some b = _
    rw [List.getLast?_concat]
  · refine (Lib.seg_append.mp h.links).1.setNext (nxOf_nexted_self hb)
      (fun x hx => nxOf_nexted_ne fun he => ?_) (fun x _ => pvOf_nexted)
    exact (List.nodup_append.mp hnd.1).2.2 x hx b (by simp) he
  · have hc := h.count
    simp only [List.length_append, List.length_cons] at hc ⊢
    show _ ≤ s.numObjects
    omega

theorem Represents.unlinkInner (h : Represents s (pre ++ t :: a :: b :: post)) :
    Represents ((s.nexted t (some b)).preved b (some t)) (pre ++ t :: b :: post) := by
  have hnd := h.nodup
  have ht : s.Live t := h.live t (by simp)
  have hb : s.Live b := h.live b (by simp)
  have hmem : ∀ x ∈ pre ++ b :: post, x ≠ t := by
    simp only [List.nodup_append, List.nodup_cons, List.mem_append,
      List.mem_cons, not_or] at hnd ⊢
    grind
  have hmem' : ∀ x ∈ pre ++ t :: post, x ≠ b := by
    simp only [List.nodup_append, List.nodup_cons, List.mem_append,
      List.mem_cons, not_or] at hnd ⊢
    grind
  refine ⟨?_, fun x hx => ?_, ?_, fun _ => ?_, ?_, ?_⟩
  · simp only [List.nodup_append, List.nodup_cons, List.mem_cons,
      not_or] at hnd ⊢
    grind
  · rw [live_preved, live_nexted]
    refine h.live x ?_
    simp only [List.mem_append, List.mem_cons] at hx ⊢
    tauto
  · rw [preved_head, nexted_head, h.head]
    cases pre <;> rfl
  · rw [preved_tail, nexted_tail, h.tail (by simp)]
    simp [List.getLast?_append, List.getLast?_cons_cons]
  · refine h.links.remove ?_ (pvOf_preved_self (by simpa using hb))
      (fun x hx => ?_) (fun x hx => ?_)
    · rw [nxOf_preved, nxOf_nexted_self ht]
    · rw [nxOf_preved, nxOf_nexted_ne (hmem x hx)]
    · rw [pvOf_preved_ne (hmem' x hx), pvOf_nexted]
  · have hc := h.count
    simp only [List.length_append, List.length_cons] at hc
    show (pre ++ t :: b :: post).length ≤ s.numObjects
    simp only [List.length_append, List.length_cons]
    omega

theorem Represents.ne_head (h : Represents s (pre ++ t :: post)) (ha : a ∉ pre ++ [t]) :
    some a ≠ s.head := by
  rw [h.head]
  intro he
  cases pre with
  | nil => exact ha (by simp [Option.some.inj he])
  | cons x pre => exact ha (by simp [Option.some.inj he])

theorem Represents.prev_of (h : Represents s (pre ++ t :: a :: post)) :
    s.pvOf a = some t := by
  have hlinks : Lib.Seg s.nxOf s.pvOf none ((pre ++ [t]) ++ a :: post) none := by
    simpa using h.links
  rw [hlinks.at.1, List.getLast?_concat]
  rfl

theorem Represents.next_of (h : Represents s (pre ++ a :: b :: post)) :
    s.nxOf a = some b := h.links.at.2

theorem Represents.not_mem_unlinked (h : Represents s (pre ++ t :: a :: b :: post)) :
    a ∉ pre ++ t :: b :: post := by
  have hnd := h.nodup
  simp only [List.nodup_append, List.nodup_cons, List.mem_append,
    List.mem_cons, not_or] at hnd ⊢
  grind

/-! ## `adjust_timer` -/

/-- A list with `a` in it, cut at `a`. -/
theorem split_at (hnd : l.Nodup) (ha : a ∈ l) :
    ∃ pre post, l = pre ++ a :: post ∧ a ∉ pre ∧ a ∉ post ∧
      l.erase a = pre ++ post ∧ after a l = post := by
  obtain ⟨pre, post, rfl⟩ := List.append_of_mem ha
  have hnd' := List.nodup_append.mp hnd
  have hpre : a ∉ pre := fun h => hnd'.2.2 a h a (by simp) rfl
  refine ⟨pre, post, rfl, hpre, (List.nodup_cons.mp hnd'.2.1).1, ?_,
    after_append hpre⟩
  rw [List.erase_append_right _ hpre, List.erase_cons_head]

theorem adjustTimer_head (h : Represents s (a :: b :: post))
    (hle : ¬ s.expireOf a < s.expireOf b) :
    Refines s (adjustTimer s (some a))
      (insertList s.expireOf a (b :: post)) := by
  have ha : s.Live a := h.live a (by simp)
  have hb : s.Live b := h.live b (by simp)
  have hnx : s.nxOf a = some b := h.links.2.1
  have hnew : a ∉ b :: post := (List.nodup_cons.mp h.nodup).1
  have hsame : SameTimers s
      ((SortTimerLst.preved { s with head := some b } b none).nexted
        a none) := ⟨fun x => by rw [expireOf_nexted, expireOf_preved]; rfl,
    fun x => by rw [live_nexted, live_preved]; rfl, rfl⟩
  have hcode : adjustTimer s (some a) =
      addTimerFrom ((SortTimerLst.preved { s with head := some b } b none).nexted
        a none) (some a) (some b) := by
    rw [adjustTimer, if_neg (by simp), deref_of_live ha, h.head,
      List.head?_cons]
    show (if s.nxOf a = none then _ else _) = _
    rw [hnx, if_neg (by simp), deref_of_live hb]
    show (if s.expireOf a < s.expireOf b then _ else if some a = some a then
      (s.deref (some a)).bind _ else _) = _
    rw [if_neg hle, if_pos rfl, deref_of_live ha, Option.bind_some, hnx]
    show (SortTimerLst.setPrev { s with head := some b } (some b) none).bind _
      = _
    have ha' : (SortTimerLst.preved { s with head := some b } b none).Live a :=
      live_preved.mpr ha
    rw [setPrev_eq (by exact hb), Option.bind_some, setNext_eq ha']
    rfl
  have hins := addTimerFrom_refines (h.unlinkHead.nexted_outside hnew)
    (by simp) ((hsame.live a).mpr ha) hnew h.count (some b)
  rw [hcode]
  have hex : _ = s.expireOf := funext hsame.expire
  rw [hex] at hins
  exact hins.of_same hsame

theorem adjustTimer_inner (h : Represents s (pre ++ t :: a :: b :: post))
    (hle : ¬ s.expireOf a < s.expireOf b) :
    Refines s (adjustTimer s (some a))
      (insertList s.expireOf a (pre ++ t :: b :: post)) := by
  have ha : s.Live a := h.live a (by simp)
  have hb : s.Live b := h.live b (by simp)
  have ht : s.Live t := h.live t (by simp)
  have hnew := h.not_mem_unlinked
  have hat : a ≠ t := fun he => hnew (by simp [he])
  have hpv : s.pvOf a = some t := h.prev_of
  have hnx : s.nxOf a = some b :=
    @Represents.next_of s (pre ++ [t]) post a b (by simpa using h)
  have hhead : some a ≠ s.head := h.ne_head fun hm => hnew (by
    simp only [List.mem_append, List.mem_cons] at hm ⊢
    tauto)
  have hsame : SameTimers s ((s.nexted t (some b)).preved b (some t)) :=
    ⟨fun x => by rw [expireOf_preved, expireOf_nexted],
      fun x => by rw [live_preved, live_nexted], rfl⟩
  have hcode : adjustTimer s (some a) =
      addTimerFrom ((s.nexted t (some b)).preved b (some t)) (some a)
        (some b) := by
    rw [adjustTimer, if_neg (by simp), deref_of_live ha]
    show (if s.nxOf a = none then _ else _) = _
    rw [hnx, if_neg (by simp), deref_of_live hb]
    show (if s.expireOf a < s.expireOf b then _ else if some a = s.head then
      _ else (s.setNext (s.pvOf a) (some b)).bind _) = _
    rw [if_neg hle, if_neg hhead, hpv, setNext_eq ht, Option.bind_some,
      deref_of_live (live_nexted.mpr ha)]
    show ((s.nexted t (some b)).setPrev ((s.nexted t (some b)).nxOf a)
      ((s.nexted t (some b)).pvOf a)).bind _ = _
    rw [nxOf_nexted_ne hat, pvOf_nexted, hnx, hpv,
      setPrev_eq (live_nexted.mpr hb), Option.bind_some,
      deref_of_live ((hsame.live a).mpr ha)]
    show addTimerFrom _ _ (((s.nexted t (some b)).preved b (some t)).nxOf a) = _
    rw [nxOf_preved, nxOf_nexted_ne hat, hnx]
  have hcount : (pre ++ t :: b :: post).length + 1 ≤ s.numObjects := by
    have hc := h.count
    simp only [List.length_append, List.length_cons] at hc ⊢
    omega
  have hins := addTimerFrom_refines h.unlinkInner (by simp)
    ((hsame.live a).mpr ha) hnew hcount (some b)
  rw [hcode]
  have hex : _ = s.expireOf := funext hsame.expire
  rw [hex] at hins
  exact hins.of_same hsame

theorem adjustTimer_refines (h : Represents s l) (ha : a ∈ l) :
    Refines s (adjustTimer s (some a)) (adjustList s.expireOf a l) := by
  obtain ⟨pre, post, hl, -, -, herase, hafter⟩ := split_at h.nodup ha
  rw [adjustList, hafter, herase]
  subst hl
  have hnx : s.nxOf a = post.head? := by
    rw [h.links.at.2, Option.or_none]
  -- the two early returns leave the list as it is
  have hcode : (post = [] ∨ ∃ b ps, post = b :: ps ∧
      s.expireOf a < s.expireOf b) → adjustTimer s (some a) = some s := by
    intro hearly
    rw [adjustTimer, if_neg (by simp), h.deref ha]
    show (if s.nxOf a = none then _ else (s.deref (s.nxOf a)).bind _) = _
    rcases hearly with rfl | ⟨b, ps, rfl, hlt⟩
    · rw [hnx, List.head?_nil, if_pos rfl]
    · rw [hnx, List.head?_cons, if_neg (by simp), h.deref (by simp),
        Option.bind_some, if_pos hlt]
  match post with
  | [] => exact ⟨s, hcode (Or.inl rfl), h, SameTimers.refl s⟩
  | b :: post =>
      show Refines s _ (if s.expireOf a < s.expireOf b then _ else _)
      split
      · next hlt =>
          exact ⟨s, hcode (Or.inr ⟨b, post, rfl, hlt⟩), h, SameTimers.refl s⟩
      · next hle =>
          rcases List.eq_nil_or_concat pre with rfl | ⟨pre, t, rfl⟩
          · exact adjustTimer_head h hle
          · have hassoc : ∀ r, pre.concat t ++ r = pre ++ t :: r := by simp
            rw [hassoc] at h ⊢
            exact adjustTimer_inner h hle

/-! ## `del_timer` and `tick` -/

/-- `a` is gone, and the other timers are what they were. -/
structure Without (s s' : SortTimerLst) (a : Nat) : Prop where
  gone : s'.heap a = none
  expire : ∀ x, x ≠ a → s'.expireOf x = s.expireOf x

theorem SameTimers.deleted {s s' : SortTimerLst} (h : SameTimers s s')
    (a : Nat) : Without s (s'.deleted a) a where
  gone := Function.update_self ..
  expire x hx := by rw [expireOf_deleted hx, h.expire]

theorem delTimer_single (h : Represents s [a]) :
    ∃ s', delTimer s (some a) = some s' ∧ Represents s' [] ∧ Without s s' a := by
  have hhead : some a = s.head := h.head.symm
  have htail : some a = s.tail := (h.tail (by simp)).symm
  have hcode : delTimer s (some a) =
      some { s.deleted a with head := none, tail := none } := by
    rw [delTimer, if_neg (by simp), if_pos ⟨hhead, htail⟩,
      delete_eq (h.live a (by simp))]
    rfl
  refine ⟨_, hcode, ⟨by simp, by simp, rfl, fun hne => absurd rfl hne, trivial,
    by simp⟩, ?_, ?_⟩
  · exact ((SameTimers.refl s).deleted a).gone
  · exact ((SameTimers.refl s).deleted a).expire

theorem delTimer_head (h : Represents s (a :: b :: post)) :
    ∃ s', delTimer s (some a) = some s' ∧ Represents s' (b :: post) ∧
      Without s s' a := by
  have hnew : a ∉ b :: post := (List.nodup_cons.mp h.nodup).1
  have ha : s.Live a := h.live a (by simp)
  have hb : s.Live b := h.live b (by simp)
  have hhead : some a = s.head := h.head.symm
  have htail : some a ≠ s.tail := by
    rw [h.tail (by simp), List.getLast?_cons_cons]
    exact fun he => hnew (List.mem_of_getLast? he.symm)
  have hnx : s.nxOf a = some b := h.links.2.1
  have hcode : delTimer s (some a) = some
      ((SortTimerLst.preved { s with head := some b } b none).deleted a) := by
    rw [delTimer, if_neg (by simp), if_neg (fun hc => htail hc.2),
      if_pos hhead, ← hhead, deref_of_live ha, hnx]
    show (SortTimerLst.setPrev { s with head := some b } (some b) none).bind _
      = _
    rw [setPrev_eq (by exact hb), Option.bind_some,
      delete_eq (live_preved.mpr (by exact ha))]
  have hsame : SameTimers s
      (SortTimerLst.preved { s with head := some b } b none) :=
    ⟨fun x => by rw [expireOf_preved]; rfl, fun x => by rw [live_preved]; rfl,
      rfl⟩
  exact ⟨_, hcode, h.unlinkHead.deleted_outside hnew h.count,
    hsame.deleted a⟩

theorem delTimer_tail (h : Represents s (pre ++ [b, a])) :
    ∃ s', delTimer s (some a) = some s' ∧ Represents s' (pre ++ [b]) ∧
      Without s s' a := by
  have hsplit : pre ++ [b, a] = (pre ++ [b]) ++ [a] := by simp
  have ha : s.Live a := h.live a (by simp)
  have hb : s.Live b := h.live b (by simp)
  have hnew : a ∉ pre ++ [b] := fun hmem =>
    (List.nodup_append.mp (hsplit ▸ h.nodup)).2.2 a hmem a (by simp) rfl
  have hhead : some a ≠ s.head := h.ne_head hnew
  have htail : some a = s.tail := by
    rw [h.tail (by simp), hsplit, List.getLast?_concat]
  have hpv : s.pvOf a = some b := h.prev_of
  have hcode : delTimer s (some a) = some
      ((SortTimerLst.nexted { s with tail := some b } b none).deleted a) := by
    rw [delTimer, if_neg (by simp), if_neg (fun hc => hhead hc.1),
      if_neg hhead, if_pos htail, ← htail, deref_of_live ha, hpv]
    show (SortTimerLst.setNext { s with tail := some b } (some b) none).bind _
      = _
    rw [setNext_eq (by exact hb), Option.bind_some,
      delete_eq (live_nexted.mpr (by exact ha))]
  have hsame : SameTimers s
      (SortTimerLst.nexted { s with tail := some b } b none) :=
    ⟨fun x => by rw [expireOf_nexted]; rfl, fun x => by rw [live_nexted]; rfl,
      rfl⟩
  have hcount : (pre ++ [b]).length + 1 ≤ s.numObjects := by
    have hc := h.count
    simp only [List.length_append, List.length_cons] at hc ⊢
    omega
  exact ⟨_, hcode, h.unlinkTail.deleted_outside hnew hcount, hsame.deleted a⟩

theorem delTimer_inner (h : Represents s (pre ++ t :: a :: b :: post)) :
    ∃ s', delTimer s (some a) = some s' ∧ Represents s' (pre ++ t :: b :: post) ∧
      Without s s' a := by
  have ha : s.Live a := h.live a (by simp)
  have hb : s.Live b := h.live b (by simp)
  have ht : s.Live t := h.live t (by simp)
  have hnew := h.not_mem_unlinked
  have hat : a ≠ t := fun he => hnew (by simp [he])
  have hpv : s.pvOf a = some t := h.prev_of
  have hnx : s.nxOf a = some b :=
    @Represents.next_of s (pre ++ [t]) post a b (by simpa using h)
  have hhead : some a ≠ s.head := h.ne_head fun hm => hnew (by
    simp only [List.mem_append, List.mem_cons] at hm ⊢
    tauto)
  have htail : some a ≠ s.tail := by
    have hlast : s.tail = (b :: post).getLast? := by
      have hcut : pre ++ t :: a :: b :: post = (pre ++ [t, a]) ++ b :: post := by
        simp
      rw [h.tail (by simp), hcut, List.getLast?_append_of_ne_nil _ (by simp)]
    rw [hlast]
    intro he
    have hm : a ∈ b :: post := List.mem_of_getLast? he.symm
    exact hnew (by
      simp only [List.mem_append, List.mem_cons] at hm ⊢
      tauto)
  have hcode : delTimer s (some a) =
      some (((s.nexted t (some b)).preved b (some t)).deleted a) := by
    rw [delTimer, if_neg (by simp), if_neg (fun hc => hhead hc.1),
      if_neg hhead, if_neg htail, deref_of_live ha, hpv, hnx]
    show (s.setNext (some t) (some b)).bind _ = _
    rw [setNext_eq ht, Option.bind_some, deref_of_live (live_nexted.mpr ha)]
    show ((s.nexted t (some b)).setPrev ((s.nexted t (some b)).nxOf a)
      ((s.nexted t (some b)).pvOf a)).bind _ = _
    rw [nxOf_nexted_ne hat, pvOf_nexted, hnx, hpv,
      setPrev_eq (live_nexted.mpr hb), Option.bind_some,
      delete_eq (live_preved.mpr (live_nexted.mpr ha))]
  have hsame : SameTimers s ((s.nexted t (some b)).preved b (some t)) :=
    ⟨fun x => by rw [expireOf_preved, expireOf_nexted],
      fun x => by rw [live_preved, live_nexted], rfl⟩
  have hcount : (pre ++ t :: b :: post).length + 1 ≤ s.numObjects := by
    have hc := h.count
    simp only [List.length_append, List.length_cons] at hc ⊢
    omega
  exact ⟨_, hcode, h.unlinkInner.deleted_outside hnew hcount,
    hsame.deleted a⟩

theorem delTimer_spec (h : Represents s l) (ha : a ∈ l) :
    ∃ s', delTimer s (some a) = some s' ∧ Represents s' (l.erase a) ∧
      Without s s' a := by
  obtain ⟨pre, post, hl, -, -, herase, -⟩ := split_at h.nodup ha
  rw [herase]
  subst hl
  rcases List.eq_nil_or_concat pre with rfl | ⟨pre, t, rfl⟩
  · match post with
    | [] => exact delTimer_single h
    | b :: post => exact delTimer_head h
  · have hassoc : ∀ r, pre.concat t ++ r = pre ++ t :: r := by simp
    rw [hassoc] at h ⊢
    match post with
    | [] => exact delTimer_tail h
    | b :: post => exact delTimer_inner h

/-- One iteration of the loop of `tick`, on the timer at the head. -/
theorem tickLoop_fire {cur : Int} {fuel : Nat} (h : Represents s (a :: post))
    (hexp : ¬ cur < s.expireOf a) :
    ∃ s', Represents s' post ∧ Without s s' a ∧
      tickLoop cur (fuel + 1) s (some a) =
        (tickLoop cur fuel s' post.head?).map fun r => (r.1, a :: r.2) := by
  have ha : s.Live a := h.live a (by simp)
  have hnew : a ∉ post := (List.nodup_cons.mp h.nodup).1
  match post with
  | [] =>
      have hnx : s.nxOf a = none := h.links.2.1
      refine ⟨SortTimerLst.deleted { s with head := none } a,
        ⟨by simp, by simp, rfl, fun hne => absurd rfl hne, trivial, by simp⟩,
        ⟨((SameTimers.refl s).deleted a).gone,
          ((SameTimers.refl s).deleted a).expire⟩, ?_⟩
      rw [tickLoop, deref_of_live ha]
      show (if cur < s.expireOf a then _ else _) = _
      rw [if_neg hexp]
      show (if s.nxOf a = none then _ else _) = _
      rw [if_pos hnx, hnx]
      show (SortTimerLst.delete { s with head := none } (some a)).bind _ = _
      rw [delete_eq (by exact ha), Option.map_eq_bind]
      rfl
  | b :: post =>
      have hb : s.Live b := h.live b (by simp)
      have hnx : s.nxOf a = some b := h.links.2.1
      have hsame : SameTimers s
          (SortTimerLst.preved { s with head := some b } b none) :=
        ⟨fun x => by rw [expireOf_preved]; rfl,
          fun x => by rw [live_preved]; rfl, rfl⟩
      refine ⟨_, h.unlinkHead.deleted_outside hnew h.count, hsame.deleted a, ?_⟩
      rw [tickLoop, deref_of_live ha]
      show (if cur < s.expireOf a then _ else _) = _
      rw [if_neg hexp]
      show (if s.nxOf a = none then _ else _) = _
      rw [hnx, if_neg (by simp)]
      show ((SortTimerLst.setPrev { s with head := some b } (some b)
        none)).bind _ = _
      rw [setPrev_eq (by exact hb), Option.bind_some]
      show ((SortTimerLst.preved { s with head := some b } b none).delete
        (some a)).bind _ = _
      rw [delete_eq (live_preved.mpr (by exact ha)), Option.map_eq_bind]
      rfl

theorem takeWhile_congr {p q : Nat → Bool} (h : ∀ x ∈ l, p x = q x) :
    l.takeWhile p = l.takeWhile q := by
  induction l with
  | nil => rfl
  | cons x l ih =>
      rw [List.takeWhile_cons, List.takeWhile_cons, h x (by simp),
        ih fun y hy => h y (by simp [hy])]

theorem dropWhile_congr {p q : Nat → Bool} (h : ∀ x ∈ l, p x = q x) :
    l.dropWhile p = l.dropWhile q := by
  induction l with
  | nil => rfl
  | cons x l ih =>
      rw [List.dropWhile_cons, List.dropWhile_cons, h x (by simp),
        ih fun y hy => h y (by simp [hy])]

/-- `tick` fires the leading timers that are due and drops them. -/
theorem tickLoop_spec {cur : Int} : ∀ (l : List Nat) (fuel : Nat)
    (s : SortTimerLst), Represents s l → l.length < fuel →
    ∃ s', tickLoop cur fuel s l.head? =
        some (s', l.takeWhile fun a => s.expireOf a ≤ cur) ∧
      Represents s' (l.dropWhile fun a => s.expireOf a ≤ cur) ∧
      ∀ x ∈ l.dropWhile fun a => s.expireOf a ≤ cur,
        s'.expireOf x = s.expireOf x := by
  intro l
  induction l with
  | nil =>
      intro fuel s h hf
      obtain ⟨n, rfl⟩ : ∃ n, fuel = n + 1 := ⟨fuel - 1, by omega⟩
      exact ⟨s, rfl, h, fun _ _ => rfl⟩
  | cons a l ih =>
      intro fuel s h hf
      obtain ⟨n, rfl⟩ : ∃ n, fuel = n + 1 := ⟨fuel - 1, by omega⟩
      by_cases hexp : cur < s.expireOf a
      · have hstop : decide (s.expireOf a ≤ cur) = false :=
          decide_eq_false (by omega)
        refine ⟨s, ?_, ?_, fun _ _ => rfl⟩
        · rw [List.head?_cons, tickLoop, h.deref (by simp),
            List.takeWhile_cons, hstop]
          show (if cur < s.expireOf a then _ else _) = _
          rw [if_pos hexp]
          rfl
        · rw [List.dropWhile_cons, hstop]
          exact h
      · have hgo : decide (s.expireOf a ≤ cur) = true :=
          decide_eq_true (by omega)
        obtain ⟨s₁, hrep, hw, hloop⟩ := @tickLoop_fire s l a cur n h hexp
        have hnot : a ∉ l := (List.nodup_cons.mp h.nodup).1
        have hex : ∀ x ∈ l, s₁.expireOf x = s.expireOf x := fun x hx =>
          hw.expire x fun he => hnot (he ▸ hx)
        have hp : ∀ x ∈ l, decide (s₁.expireOf x ≤ cur) =
            decide (s.expireOf x ≤ cur) := fun x hx => by rw [hex x hx]
        obtain ⟨s', hrun, hrep', hexp'⟩ := ih n s₁ hrep
          (by simp only [List.length_cons] at hf; omega)
        rw [takeWhile_congr hp] at hrun
        rw [dropWhile_congr hp] at hrep' hexp'
        refine ⟨s', ?_, ?_, ?_⟩
        · rw [List.head?_cons, hloop, hrun, List.takeWhile_cons, hgo]
          rfl
        · rw [List.dropWhile_cons, hgo]
          exact hrep'
        · rw [List.dropWhile_cons, hgo]
          intro x hx
          rw [hexp' x hx, hex x (List.dropWhile_sublist _ |>.mem hx)]

theorem tick_spec {cur : Int} (h : Represents s l) :
    ∃ s', tick cur s = some (s', l.takeWhile fun a => s.expireOf a ≤ cur) ∧
      Represents s' (l.dropWhile fun a => s.expireOf a ≤ cur) ∧
      ∀ x ∈ l.dropWhile fun a => s.expireOf a ≤ cur,
        s'.expireOf x = s.expireOf x := by
  rw [tick, h.head]
  cases l with
  | nil => exact ⟨s, rfl, h, fun _ _ => rfl⟩
  | cons a l =>
      rw [List.head?_cons, if_neg (by simp)]
      exact tickLoop_spec (a :: l) _ s h (Nat.lt_succ_of_le h.count)

end LearningLinux.TimerList
