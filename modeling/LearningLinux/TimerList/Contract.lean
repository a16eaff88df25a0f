import LearningLinux.TimerList.Ops

/-!
# The contract of `sort_timer_lst`, over whole runs

A run starts from the empty list and calls `add_timer` with new timers,
`adjust_timer` after the expiration time of a timer in the list was moved
back, `del_timer` and `tick`. `pending` records which timers were added and
neither deleted nor fired; the code has no such variable, it is what the
list is meant to hold.

The code keeps its list well formed exactly on the runs whose insertions the
private helper happens to get right (`Avoids`): the new time goes to the
front, or the timer belongs right behind the first node, or right behind the
second one without being the last. Every other insertion, of a timer that
expires later than two others for instance, or the second timer ever, leaves
the list out of order or writes through the null `next` of the last node.
-/

namespace LearningLinux.TimerList

open SortTimerLst

structure St where
  lst : SortTimerLst
  pending : List Nat

def St.init : St := ⟨SortTimerLst.empty, []⟩

inductive Op where
  | add (a : Nat) (expire : Int)
  | adjust (a : Nat) (expire : Int)
  | del (a : Nat)
  | tick (cur : Int)
  deriving DecidableEq, Repr

/-- One call, with the allocation or the assignment of `expire` its caller
makes right before it. -/
def step (st : St) : Op → Option St
  | .add a e => do
      let lst ← addTimer (st.lst.newTimer a e) (some a)
      some ⟨lst, a :: st.pending⟩
  | .adjust a e => do
      let s ← st.lst.setExpire a e
      let lst ← adjustTimer s (some a)
      some ⟨lst, st.pending⟩
  | .del a => do
      let lst ← delTimer st.lst (some a)
      some ⟨lst, st.pending.erase a⟩
  | .tick cur => do
      let (lst, fired) ← TimerList.tick cur st.lst
      some ⟨lst, st.pending.filter (· ∉ fired)⟩

/-- What the caller promises. -/
def Allowed (st : St) : Op → Prop
  | .add a _ => st.lst.heap a = none
  | .adjust a e => a ∈ st.pending ∧ st.lst.expireOf a ≤ e
  | .del a => a ∈ st.pending
  | .tick _ => True

/-- The nodes met from `head` on form a doubly linked list ending in `tail`,
in the order of their expiration times, and they are the pending timers. -/
structure WellFormed (st : St) : Prop where
  repr : Represents st.lst (nodes st.lst)
  ascending : Ascending st.lst.expireOf (nodes st.lst)
  pending : (nodes st.lst).Perm st.pending

/-! ## The insertions the helper gets right -/

/-- A timer that expires at `e`, no earlier than the first node, may go
behind the first node or, not as the last one, behind the second. -/
def Fits (ex : Nat → Int) (e : Int) : List Nat → Prop
  | x :: y :: rest => e ≤ ex x ∨ (e = ex y ∧ rest ≠ [])
  | _ => False

/-- A new timer also may go to the front, or into an empty list. -/
def AddFits (ex : Nat → Int) (e : Int) : List Nat → Prop
  | [] => True
  | x :: rest => e < ex x ∨ Fits ex e (x :: rest)

/-- A timer whose time becomes `e` may also stay where it is, if it is the
last one or still expires before the node behind it. -/
def AdjustFits (ex : Nat → Int) (a : Nat) (e : Int) (l : List Nat) : Prop :=
  match after a l with
  | [] => True
  | n :: _ => e < ex n ∨ Fits ex e (l.erase a)

/-- The insertions the helper gets right; the other calls have no
condition. -/
def Avoids (st : St) : Op → Prop
  | .add _ e => AddFits st.lst.expireOf e (nodes st.lst)
  | .adjust a e => AdjustFits st.lst.expireOf a e (nodes st.lst)
  | .del _ => True
  | .tick _ => True

section Lists

variable {ex ex' : Nat → Int} {a x : Nat} {e : Int} {l l' rest : List Nat}

theorem fits_congr (h : ∀ y ∈ l, ex' y = ex y) :
    Fits ex' e l ↔ Fits ex e l := by
  match l with
  | [] => exact Iff.rfl
  | [_] => exact Iff.rfl
  | x :: y :: rest =>
      rw [Fits, Fits, h x (by simp), h y (by simp)]

theorem addFits_congr (h : ∀ y ∈ l, ex' y = ex y) :
    AddFits ex' e l ↔ AddFits ex e l := by
  match l with
  | [] => exact Iff.rfl
  | x :: rest => rw [AddFits, AddFits, fits_congr h, h x (by simp)]

theorem insertList_ascending_iff (h : Ascending ex (x :: rest))
    (hx : ex x ≤ ex a) :
    (∃ l', insertList ex a (x :: rest) = some l' ∧ Ascending ex l') ↔
      Fits ex (ex a) (x :: rest) := by
  cases rest with
  | nil =>
      constructor
      · rintro ⟨l', he, _⟩
        exact absurd he (by simp [insertList])
      · exact False.elim
  | cons y rest =>
      have hxy := List.pairwise_cons.mp h
      have hyr := List.pairwise_cons.mp hxy.2
      rw [Fits]
      by_cases hmove : ex x < ex a ∧ ex a ≤ ex y
      · -- the loop moves on to the second node
        cases rest with
        | nil =>
            have hnone : insertList ex a [x, y] = none := by
              simp [insertList, hmove]
            rw [hnone]
            constructor
            · rintro ⟨l', he, _⟩
              cases he
            · rintro (he | ⟨-, hne⟩)
              · omega
              · exact absurd rfl hne
        | cons z rest =>
            have hsome : insertList ex a (x :: y :: z :: rest) =
                some (x :: y :: a :: z :: rest) := by
              simp [insertList, hmove]
            rw [hsome]
            constructor
            · rintro ⟨l', he, hasc⟩
              cases he
              have hya : ex y ≤ ex a :=
                (List.pairwise_cons.mp (List.pairwise_cons.mp hasc).2).1 a
                  (by simp)
              exact Or.inr ⟨by omega, by simp⟩
            · rintro (he | ⟨he, -⟩)
              · omega
              · refine ⟨_, rfl, ?_⟩
                simp only [Ascending, List.pairwise_cons, List.mem_cons] at h ⊢
                grind
      · -- the loop stays at the first node
        have hsome : insertList ex a (x :: y :: rest) =
            some (x :: a :: y :: rest) := by
          simp only [insertList, if_neg hmove]
        rw [hsome]
        constructor
        · rintro ⟨l', he, hasc⟩
          cases he
          have hay : ex a ≤ ex y :=
            (List.pairwise_cons.mp (List.pairwise_cons.mp hasc).2).1 y
              (by simp)
          exact Or.inl (by omega)
        · intro hfit
          have hay : ex a ≤ ex x ∨ ex a = ex y := by
            rcases hfit with he | ⟨he, -⟩
            · exact Or.inl he
            · exact Or.inr he
          have := hxy.1 y (by simp)
          refine ⟨_, rfl, ?_⟩
          simp only [Ascending, List.pairwise_cons, List.mem_cons] at h ⊢
          grind

theorem insertList_perm (h : insertList ex a l = some l') :
    l'.Perm (a :: l) := by
  match l with
  | [] => cases h
  | [_] => cases h
  | x :: y :: rest =>
      simp only [insertList] at h
      split at h
      · match rest with
        | [] => cases h
        | z :: rest =>
            cases h
            exact ((List.Perm.swap a y _).cons x).trans (List.Perm.swap a x _)
      · cases h
        exact List.Perm.swap a x _

theorem addList_ascending_iff (h : Ascending ex l) :
    (∃ l', addList ex a l = some l' ∧ Ascending ex l') ↔
      AddFits ex (ex a) l := by
  match l with
  | [] => exact ⟨fun _ => trivial, fun _ => ⟨_, rfl, by simp [Ascending]⟩⟩
  | x :: rest =>
      show (∃ l', (if ex a < ex x then _ else _) = some l' ∧ _) ↔ _
      by_cases hlt : ex a < ex x
      · refine ⟨fun _ => Or.inl hlt, fun _ => ⟨a :: x :: rest, if_pos hlt, ?_⟩⟩
        refine List.pairwise_cons.mpr ⟨fun y hy => ?_, h⟩
        rcases List.mem_cons.mp hy with rfl | hy
        · omega
        · have := (List.pairwise_cons.mp h).1 y hy
          omega
      · rw [if_neg hlt, insertList_ascending_iff h (by omega)]
        exact ⟨Or.inr, fun h => h.resolve_left hlt⟩

theorem addList_perm (h : addList ex a l = some l') : l'.Perm (a :: l) := by
  match l with
  | [] =>
      cases h
      exact List.Perm.refl _
  | x :: rest =>
      simp only [addList] at h
      split at h
      · cases h
        exact List.Perm.refl _
      · exact insertList_perm h

/-- Moving the time of `a` back keeps the order when `a` is last or still
expires before the node behind it. -/
theorem ascending_postponed {pre post : List Nat}
    (h : Ascending ex (pre ++ a :: post)) (hne : ∀ y, y ≠ a → ex' y = ex y)
    (ha : a ∉ pre ++ post) (hle : ex a ≤ ex' a)
    (hpost : ∀ y ∈ post, ex' a ≤ ex y) : Ascending ex' (pre ++ a :: post) := by
  have hpre : ∀ y ∈ pre, ex' y = ex y := fun y hy =>
    hne y fun he => ha (by simp [← he, hy])
  have hpst : ∀ y ∈ post, ex' y = ex y := fun y hy =>
    hne y fun he => ha (by simp [← he, hy])
  obtain ⟨h₁, h₂, h₃⟩ := List.pairwise_append.mp h
  obtain ⟨h₄, h₅⟩ := List.pairwise_cons.mp h₂
  refine List.pairwise_append.mpr ⟨Ascending.congr h₁ hpre,
    List.pairwise_cons.mpr ⟨fun y hy => ?_, Ascending.congr h₅ hpst⟩,
    fun x hx y hy => ?_⟩
  · rw [hpst y hy]
    exact hpost y hy
  · rw [hpre x hx]
    rcases List.mem_cons.mp hy with rfl | hy
    · have := h₃ x hx y (by simp)
      omega
    · rw [hpst y hy]
      exact h₃ x hx y (by simp [hy])

theorem adjustList_ascending_iff (hnd : l.Nodup) (ha : a ∈ l)
    (h : Ascending ex l) (hne : ∀ y, y ≠ a → ex' y = ex y)
    (hle : ex a ≤ ex' a) :
    (∃ l', adjustList ex' a l = some l' ∧ Ascending ex' l') ↔
      AdjustFits ex a (ex' a) l := by
  obtain ⟨pre, post, rfl, hpre, hpost, herase, hafter⟩ := split_at hnd ha
  have hnot : a ∉ pre ++ post := by simp [hpre, hpost]
  have hsame : ∀ y ∈ pre ++ post, ex' y = ex y := fun y hy =>
    hne y fun he => hnot (he ▸ hy)
  rw [adjustList, AdjustFits, hafter, herase]
  cases post with
  | nil =>
      exact ⟨fun _ => trivial, fun _ => ⟨_, rfl,
        ascending_postponed h hne hnot hle (by simp)⟩⟩
  | cons n post =>
      obtain ⟨h₁, h₂, h₃⟩ := List.pairwise_append.mp h
      obtain ⟨h₄, h₅⟩ := List.pairwise_cons.mp h₂
      have hn : ex' n = ex n := hsame n (by simp)
      show (∃ l', (if ex' a < ex' n then _ else _) = some l' ∧ _) ↔ _
      rw [hn]
      by_cases hlt : ex' a < ex n
      · refine ⟨fun _ => Or.inl hlt, fun _ => ⟨_, if_pos hlt,
          ascending_postponed h hne hnot hle fun y hy => ?_⟩⟩
        rcases List.mem_cons.mp hy with rfl | hy
        · omega
        · have := (List.pairwise_cons.mp h₅).1 y hy
          omega
      · have herased : Ascending ex' (pre ++ n :: post) := by
          refine Ascending.congr (h.sublist ?_) hsame
          exact (List.Sublist.refl pre).append (List.sublist_cons_self a _)
        rw [if_neg hlt, ← fits_congr hsame]
        -- the first node of what is left expires no later than `a` did
        have hfirst : ∀ x rest, pre ++ n :: post = x :: rest →
            ex' x ≤ ex' a := by
          intro x rest he
          cases pre with
          | nil =>
              obtain ⟨rfl, -⟩ := List.cons.inj he
              omega
          | cons p pre =>
              obtain ⟨rfl, -⟩ := List.cons.inj he
              have := h₃ p (by simp) a (by simp)
              rw [hsame p (by simp)]
              omega
        cases hl : pre ++ n :: post with
        | nil => simp at hl
        | cons x rest =>
            rw [hl] at herased
            rw [insertList_ascending_iff herased (hfirst x rest hl)]
            exact ⟨Or.inr, fun h => h.resolve_left hlt⟩

theorem adjustList_perm (ha : a ∈ l)
    (h : adjustList ex a l = some l') : l'.Perm l := by
  simp only [adjustList] at h
  split at h
  · cases h
    exact List.Perm.refl _
  · split at h
    · cases h
      exact List.Perm.refl _
    · exact (insertList_perm h).trans (List.perm_cons_erase ha).symm

end Lists

/-! ## One call -/

section Step

variable {st st' : St} {s s' : SortTimerLst} {l : List Nat}

/-- The outcome of a call is a well-formed state exactly when the outcome of
the list function is sorted. -/
theorem Refines.wellFormed_iff {r : Option SortTimerLst}
    {o : Option (List Nat)} {pending : List Nat} (h : Refines s r o)
    (hperm : ∀ l, o = some l → l.Perm pending) :
    (∃ st', (r.bind fun lst => some (St.mk lst pending)) = some st' ∧
        WellFormed st') ↔
      ∃ l, o = some l ∧ Ascending s.expireOf l := by
  cases o with
  | none =>
      rw [Refines] at h
      simp [h]
  | some l =>
      obtain ⟨s', hr, hrep, hsame⟩ := h
      have hex : s'.expireOf = s.expireOf := funext hsame.expire
      rw [hr]
      constructor
      · intro ⟨st', he, hwf⟩
        cases he
        have hasc : Ascending s'.expireOf (nodes s') := hwf.ascending
        rw [hrep.nodes_eq, hex] at hasc
        exact ⟨l, rfl, hasc⟩
      · intro ⟨l', he, hasc⟩
        cases he
        refine ⟨_, rfl, ?_, ?_, ?_⟩
        · show Represents s' (nodes s')
          rw [hrep.nodes_eq]
          exact hrep
        · show Ascending s'.expireOf (nodes s')
          rw [hrep.nodes_eq, hex]
          exact hasc
        · show (nodes s').Perm pending
          rw [hrep.nodes_eq]
          exact hperm l rfl

/-- Allocating a timer leaves the list alone. -/
theorem Represents.newTimer {a : Nat} {e : Int} (h : Represents s l)
    (ha : a ∉ l) : Represents (s.newTimer a e) l := by
  have hheap : ∀ x ∈ l, (s.newTimer a e).heap x = s.heap x := fun x hx =>
    Function.update_of_ne (fun he : x = a => ha (he ▸ hx)) ..
  refine ⟨h.nodup, fun x hx => ?_, h.head, h.tail, ?_, Nat.le_succ_of_le h.count⟩
  · rw [Live, hheap x hx]
    exact h.live x hx
  · exact h.links.congr (fun x hx => by rw [nxOf, hheap x hx, nxOf])
      (fun x hx => by rw [pvOf, hheap x hx, pvOf])

theorem expireOf_newTimer_ne {a x : Nat} {e : Int} (h : x ≠ a) :
    (s.newTimer a e).expireOf x = s.expireOf x := by
  simp [expireOf, newTimer, h]

theorem step_add_iff {a : Nat} {e : Int} (h : WellFormed st)
    (ha : Allowed st (.add a e)) :
    (∃ st', step st (.add a e) = some st' ∧ WellFormed st') ↔
      Avoids st (.add a e) := by
  have hnew : a ∉ nodes st.lst := by
    intro hmem
    have hlive := h.repr.live a hmem
    rw [Live, show st.lst.heap a = none from ha] at hlive
    cases hlive
  have hself : (st.lst.newTimer a e).heap a = some ⟨e, none, none⟩ :=
    Function.update_self ..
  have hex : ∀ x ∈ nodes st.lst,
      (st.lst.newTimer a e).expireOf x = st.lst.expireOf x := fun x hx =>
    expireOf_newTimer_ne fun he => hnew (he ▸ hx)
  have hea : (st.lst.newTimer a e).expireOf a = e := by
    rw [expireOf, hself]
    rfl
  have hrep : Represents (st.lst.newTimer a e) (nodes st.lst) :=
    h.repr.newTimer hnew
  have href := addTimer_refines hrep (by rw [Live, hself]; rfl) hnew
    (Nat.succ_le_succ h.repr.count) (by rw [nxOf, hself]; rfl)
    (by rw [pvOf, hself]; rfl)
  have hasc := Ascending.congr h.ascending hex
  have hperm : ∀ l, addList (st.lst.newTimer a e).expireOf a (nodes st.lst) =
      some l → l.Perm (a :: st.pending) := fun l hl =>
    (addList_perm hl).trans (h.pending.cons a)
  have hiff := href.wellFormed_iff hperm
  refine hiff.trans ((addList_ascending_iff hasc).trans ?_)
  rw [Avoids, hea]
  exact addFits_congr hex

/-- Writing a timer's `expire` leaves the list alone. -/
theorem setExpire_spec {a : Nat} (e : Int) (h : s.Live a) :
    ∃ s', s.setExpire a e = some s' ∧ s'.expireOf a = e ∧
      (∀ x, x ≠ a → s'.expireOf x = s.expireOf x) ∧
      ∀ l, Represents s l → Represents s' l := by
  obtain ⟨t, ht⟩ := Option.isSome_iff_exists.mp h
  have hcode : s.setExpire a e = some { s with
      heap := Function.update s.heap a (some { t with expire := e }) } := by
    rw [setExpire, ht]
    rfl
  refine ⟨_, hcode, ?_, fun x hx => ?_, fun l hl => ?_⟩
  · simp [expireOf]
  · simp [expireOf, hx]
  · refine ⟨hl.nodup, fun x hx => ?_, hl.head, hl.tail, ?_, hl.count⟩
    · by_cases hxa : x = a
      · subst hxa; simp [Live]
      · have := hl.live x hx
        simpa [Live, hxa] using this
    · refine hl.links.congr (fun x _ => ?_) (fun x _ => ?_)
      · by_cases hxa : x = a
        · subst hxa; simp [nxOf, ht]
        · simp [nxOf, hxa]
      · by_cases hxa : x = a
        · subst hxa; simp [pvOf, ht]
        · simp [pvOf, hxa]

theorem step_adjust_iff {a : Nat} {e : Int} (h : WellFormed st)
    (ha : Allowed st (.adjust a e)) :
    (∃ st', step st (.adjust a e) = some st' ∧ WellFormed st') ↔
      Avoids st (.adjust a e) := by
  have hmem : a ∈ nodes st.lst := h.pending.mem_iff.mpr ha.1
  obtain ⟨s, hs, hea, hex, hrep⟩ := setExpire_spec e (h.repr.live a hmem)
  have href := adjustTimer_refines (hrep _ h.repr) hmem
  have hperm : ∀ l, adjustList s.expireOf a (nodes st.lst) = some l →
      l.Perm st.pending := fun l hl =>
    (adjustList_perm hmem hl).trans h.pending
  have hstep : step st (.adjust a e) =
      (adjustTimer s (some a)).bind fun lst => some ⟨lst, st.pending⟩ := by
    rw [step, hs]
    rfl
  have hle : st.lst.expireOf a ≤ s.expireOf a := by
    rw [hea]
    exact ha.2
  rw [hstep, href.wellFormed_iff hperm,
    adjustList_ascending_iff h.repr.nodup hmem h.ascending hex hle, hea, Avoids]

theorem step_del_ok {a : Nat} (h : WellFormed st)
    (ha : Allowed st (.del a)) :
    ∃ st', step st (.del a) = some st' ∧ WellFormed st' := by
  have hmem : a ∈ nodes st.lst := h.pending.mem_iff.mpr ha
  obtain ⟨s', hcode, hrep, hw⟩ := delTimer_spec h.repr hmem
  have hstep : step st (.del a) = some ⟨s', st.pending.erase a⟩ := by
    rw [step, hcode]
    rfl
  have hnot : a ∉ (nodes st.lst).erase a := fun hm =>
    ((h.repr.nodup.mem_erase_iff).mp hm).1 rfl
  refine ⟨_, hstep, ?_, ?_, ?_⟩
  · show Represents s' (nodes s')
    rw [hrep.nodes_eq]
    exact hrep
  · show Ascending s'.expireOf (nodes s')
    rw [hrep.nodes_eq]
    refine Ascending.congr (h.ascending.sublist List.erase_sublist)
      fun x hx => hw.expire x fun he => hnot (he ▸ hx)
  · show (nodes s').Perm (st.pending.erase a)
    rw [hrep.nodes_eq]
    exact h.pending.erase a

/-- On a list without repetitions, the part `dropWhile` leaves is the part
that is not in the one `takeWhile` takes. -/
theorem dropWhile_eq_filter {p : Nat → Bool} (hnd : l.Nodup) :
    l.dropWhile p = l.filter (· ∉ l.takeWhile p) := by
  have happ : l.takeWhile p ++ l.dropWhile p = l :=
    List.takeWhile_append_dropWhile
  have hdis : ∀ x ∈ l.dropWhile p, x ∉ l.takeWhile p := by
    intro x hd ht
    rw [← happ] at hnd
    exact (List.nodup_append.mp hnd).2.2 x ht x hd rfl
  have hsplit : l.filter (· ∉ l.takeWhile p) =
      (l.takeWhile p).filter (· ∉ l.takeWhile p) ++
        (l.dropWhile p).filter (· ∉ l.takeWhile p) := by
    rw [← List.filter_append, happ]
  have hnone : (l.takeWhile p).filter (· ∉ l.takeWhile p) = [] :=
    List.filter_eq_nil_iff.mpr (by simp)
  have hall : (l.dropWhile p).filter (· ∉ l.takeWhile p) = l.dropWhile p :=
    List.filter_eq_self.mpr fun x hx => by simpa using hdis x hx
  rw [hsplit, hnone, hall, List.nil_append]

theorem step_tick_ok {cur : Int} (h : WellFormed st) :
    ∃ st', step st (.tick cur) = some st' ∧ WellFormed st' := by
  obtain ⟨s', hcode, hrep, hexp⟩ := @tick_spec st.lst (nodes st.lst) cur h.repr
  have hstep : step st (.tick cur) = some ⟨s', st.pending.filter
      (· ∉ (nodes st.lst).takeWhile fun a => st.lst.expireOf a ≤ cur)⟩ := by
    rw [step, hcode]
    rfl
  refine ⟨_, hstep, ?_, ?_, ?_⟩
  · show Represents s' (nodes s')
    rw [hrep.nodes_eq]
    exact hrep
  · show Ascending s'.expireOf (nodes s')
    rw [hrep.nodes_eq]
    exact Ascending.congr (h.ascending.sublist (List.dropWhile_sublist _)) hexp
  · show (nodes s').Perm (st.pending.filter _)
    rw [hrep.nodes_eq, dropWhile_eq_filter h.repr.nodup]
    exact h.pending.filter _

/-- From a well-formed state, an allowed call leads to a well-formed state
exactly when it is one of the insertions the helper gets right, or no
insertion. -/
theorem step_wellFormed_iff {op : Op} (h : WellFormed st)
    (ha : Allowed st op) :
    (∃ st', step st op = some st' ∧ WellFormed st') ↔ Avoids st op := by
  cases op with
  | add a e => exact step_add_iff h ha
  | adjust a e => exact step_adjust_iff h ha
  | del a => exact ⟨fun _ => trivial, fun _ => step_del_ok h ha⟩
  | tick cur => exact ⟨fun _ => trivial, fun _ => step_tick_ok h⟩

end Step

/-! ## Whole runs -/

/-- Along the calls `ops`, as long as the caller keeps its promises, no call
dereferences a null pointer and each one leaves a well-formed list. -/
def SafeRun : St → List Op → Prop
  | _, [] => True
  | st, op :: ops =>
      Allowed st op →
        ∃ st', step st op = some st' ∧ WellFormed st' ∧ SafeRun st' ops

/-- Along the calls `ops`, every insertion is one the helper gets right. -/
def AvoidsAll : St → List Op → Prop
  | _, [] => True
  | st, op :: ops =>
      Allowed st op →
        Avoids st op ∧ ∀ st', step st op = some st' → AvoidsAll st' ops

theorem wellFormed_init : WellFormed St.init where
  repr := ⟨by simp [nodes, walk, St.init, SortTimerLst.empty], by
    simp [nodes, walk, St.init, SortTimerLst.empty], rfl, fun h => absurd rfl h,
    trivial, Nat.le_refl 0⟩
  ascending := List.Pairwise.nil
  pending := List.Perm.refl _

theorem safeRun_iff_of_wellFormed : ∀ (ops : List Op) {st : St},
    WellFormed st → (SafeRun st ops ↔ AvoidsAll st ops) := by
  intro ops
  induction ops with
  | nil => intro st _; exact Iff.rfl
  | cons op ops ih =>
      intro st hwf
      refine forall_congr' fun ha => ?_
      have hiff := step_wellFormed_iff hwf ha
      constructor
      · intro ⟨st', hstep, hwf', hrest⟩
        refine ⟨hiff.mp ⟨st', hstep, hwf'⟩, fun st'' hstep' => ?_⟩
        rw [hstep] at hstep'
        cases hstep'
        exact (ih hwf').mp hrest
      · intro ⟨havoid, hrest⟩
        obtain ⟨st', hstep, hwf'⟩ := hiff.mpr havoid
        exact ⟨st', hstep, hwf', (ih hwf').mpr (hrest st' hstep)⟩

/-- From the empty list, a run keeps the list well formed and never follows a
null pointer exactly when all its insertions are ones the helper gets
right. -/
theorem safeRun_iff (ops : List Op) :
    SafeRun St.init ops ↔ AvoidsAll St.init ops :=
  safeRun_iff_of_wellFormed ops wellFormed_init

/-- Two timers, the second expiring later: linking it behind the only node
writes through that node's null `next`. -/
theorem not_safeRun_two_timers :
    ¬ SafeRun St.init [.add 0 1, .add 1 2] := by
  intro h
  obtain ⟨st, hstep, -, hsafe⟩ := h rfl
  cases hstep
  obtain ⟨st', hstep', -⟩ := hsafe rfl
  cases hstep'

end LearningLinux.TimerList
