import Mathlib.Data.List.Perm.Basic
import Mathlib.Data.BitVec
import LearningLinux.AtomicMultiply.Model

/-!
# The multiplications are linearizable

The order of the calls is that of their successful exchanges. That the
variable may have had other values between a load and the exchange, and may
have come back, is of no concern: what an exchange multiplies is the value at
the exchange itself.
-/

namespace LearningLinux.AtomicMultiply

open LearningLinux.Lib

variable {ι T : Type*}

/-! ## Chains -/

section Chain

variable [Monoid T]

theorem Chained.concat {v w m : T} {log : List (Exchange T)} {id : Nat}
    (h : Chained v log w) : Chained v (log ++ [⟨id, m, w⟩]) (w * m) := by
  induction log generalizing v with
  | nil =>
      cases h
      exact ⟨rfl, rfl⟩
  | cons x log ih => exact ⟨h.1, ih h.2⟩

theorem Chained.eq_prod {v w : T} {log : List (Exchange T)}
    (h : Chained v log w) : w = v * (log.map (·.mult)).prod := by
  induction log generalizing v with
  | nil =>
      rw [List.map_nil, List.prod_nil, mul_one]
      exact h
  | cons x log ih => rw [ih h.2, List.map_cons, List.prod_cons, mul_assoc]

end Chain

/-! ## Histories -/

theorem pair_sublist_concat {α : Type*} {a b c : α} {l : List α}
    (h : List.Sublist [a, b] (l ++ [c])) :
    List.Sublist [a, b] l ∨ a ∈ l ∧ b = c := by
  obtain ⟨l₁, l₂, hl, h₁, h₂⟩ := List.sublist_append_iff.mp h
  match l₁, hl with
  | [], hl =>
      have hlen := h₂.length_le
      rw [← show [a, b] = l₂ from hl] at hlen
      simp at hlen
  | [x], hl =>
      obtain ⟨rfl, rfl⟩ : a = x ∧ [b] = l₂ := by simpa using hl
      exact Or.inr ⟨List.singleton_sublist.mp h₁,
        List.mem_singleton.mp (List.singleton_sublist.mp h₂)⟩
  | x :: y :: l₁, hl =>
      obtain ⟨rfl, rfl, rfl, -⟩ : a = x ∧ b = y ∧ l₁ = [] ∧ l₂ = [] := by
        simpa [eq_comm] using hl
      exact Or.inl h₁

theorem pair_sublist_of_mem {α : Type*} {a b : α} {l : List α} (h : a ∈ l) :
    List.Sublist [a, b] (l ++ [b]) :=
  (List.singleton_sublist.mpr h).append (List.Sublist.refl [b])

/-- A call that begins after others have returned. -/
theorem Precedes.call {h : List (Event T)} {a b id : Nat} {op : Op} {m : T}
    (hp : Precedes (h ++ [Event.call id op m]) a b) :
    Precedes h a b ∨ b = id ∧ ∃ value, Event.ret a value ∈ h := by
  obtain ⟨value, op', m', hsub⟩ := hp
  rcases pair_sublist_concat hsub with hold | ⟨hmem, heq⟩
  · exact Or.inl ⟨value, op', m', hold⟩
  · cases heq
    exact Or.inr ⟨rfl, value, hmem⟩

theorem Precedes.ret {h : List (Event T)} {a b id : Nat} {value : Option T}
    (hp : Precedes (h ++ [Event.ret id value]) a b) : Precedes h a b := by
  obtain ⟨value', op, m, hsub⟩ := hp
  rcases pair_sublist_concat hsub with hold | ⟨-, heq⟩
  · exact ⟨value', op, m, hold⟩
  · cases heq

theorem Precedes.mem_ret {h : List (Event T)} {a b : Nat}
    (hp : Precedes h a b) : ∃ value, Event.ret a value ∈ h := by
  obtain ⟨value, op, m, hsub⟩ := hp
  exact ⟨value, hsub.subset List.mem_cons_self⟩

theorem mem_callsOf {h : List (Event T)} {id : Nat} {m : T} :
    (id, m) ∈ callsOf h ↔ ∃ op, Event.call id op m ∈ h := by
  rw [callsOf, List.mem_filterMap]
  constructor
  · intro ⟨e, he, hcall⟩
    cases e with
    | call id' op m' =>
        cases hcall
        exact ⟨op, he⟩
    | ret id' value => cases hcall
  · intro ⟨op, he⟩
    exact ⟨_, he, rfl⟩

/-! ## The invariant -/

/-- A call under way is in the history, and in the log from its exchange
on. -/
structure Running.Fits (r : Running T) (history : List (Event T))
    (log : List (Exchange T)) : Prop where
  called : Event.call r.id r.op r.mult ∈ history
  before : (∀ oldValue, r.pc ≠ .ret oldValue) → r.id ∉ log.map (·.id)
  after : ∀ oldValue, r.pc = .ret oldValue → ⟨r.id, r.mult, oldValue⟩ ∈ log

theorem Running.Fits.mono {r : Running T} {h h' : List (Event T)}
    {log : List (Exchange T)} (hr : r.Fits h log) (hsub : h ⊆ h') :
    r.Fits h' log :=
  ⟨hsub hr.called, hr.before, hr.after⟩

/-- The thread that moved, or another one. -/
theorem update_cases [DecidableEq ι] {t u : ι} {thread : ι → Option (Running T)}
    {o : Option (Running T)} {r : Running T}
    (h : Function.update thread t o u = some r) :
    u = t ∧ o = some r ∨ u ≠ t ∧ thread u = some r := by
  by_cases hut : u = t
  · subst hut
    rw [Function.update_self] at h
    exact Or.inl ⟨rfl, h⟩
  · rw [Function.update_of_ne hut] at h
    exact Or.inr ⟨hut, h⟩

structure Inv [Monoid T] (v : T) (s : State ι T) : Prop where
  ids : (callsOf s.history).map (·.1) = List.range s.calls
  running : ∀ t r, s.thread t = some r → r.Fits s.history s.log
  distinct : ∀ t u r r', s.thread t = some r → s.thread u = some r' →
    r.id = r'.id → t = u
  once : (s.log.map (·.id)).Nodup
  made : ∀ x ∈ s.log, ∃ op, Event.call x.id op x.mult ∈ s.history
  chained : Chained v s.log s.shared
  returned : ∀ id value, Event.ret id value ∈ s.history →
    ∃ x ∈ s.log, x.id = id ∧ ∃ op, Event.call id op x.mult ∈ s.history ∧
      value = op.result x.before
  realTime : ∀ a b, Precedes s.history a b → b ∈ s.log.map (·.id) →
    List.Sublist [a, b] (s.log.map (·.id))
  pending : ∀ id op mult, Event.call id op mult ∈ s.history →
    id ∈ s.log.map (·.id) ∨ ∃ t r, s.thread t = some r ∧ r.id = id

variable [Monoid T] {v : T} {s s' : State ι T}

theorem inv_init : Inv v (State.init v : State ι T) where
  ids := rfl
  running := nofun
  distinct := nofun
  once := List.nodup_nil
  made := nofun
  chained := rfl
  returned := nofun
  realTime := nofun
  pending := nofun

theorem Inv.id_lt (h : Inv v s) {id : Nat} {op : Op} {m : T}
    (he : Event.call id op m ∈ s.history) : id < s.calls := by
  have hmem : id ∈ (callsOf s.history).map (·.1) :=
    List.mem_map.mpr ⟨(id, m), mem_callsOf.mpr ⟨op, he⟩, rfl⟩
  rw [h.ids] at hmem
  exact List.mem_range.mp hmem

theorem Inv.log_lt (h : Inv v s) {id : Nat} (hid : id ∈ s.log.map (·.id)) :
    id < s.calls := by
  obtain ⟨x, hx, rfl⟩ := List.mem_map.mp hid
  obtain ⟨op, he⟩ := h.made x hx
  exact h.id_lt he

/-! ## Steps -/

variable [DecidableEq ι]

theorem Inv.call (h : Inv v s) (t : ι) (op : Op) (mult : T)
    (hidle : s.thread t = none) : Inv v (s.call t op mult) := by
  have hsub : s.history ⊆ s.history ++ [Event.call s.calls op mult] :=
    List.subset_append_left _ _
  have hfresh : s.calls ∉ s.log.map (·.id) :=
    fun hmem => Nat.lt_irrefl _ (h.log_lt hmem)
  have hother {u : ι} {r : Running T} (hr : s.thread u = some r) :
      r.id ≠ s.calls := fun heq =>
    Nat.lt_irrefl _ (heq ▸ h.id_lt (h.running u r hr).called)
  refine ⟨?_, ?_, ?_, h.once, ?_, h.chained, ?_, ?_, ?_⟩
  · show (callsOf (s.history ++ _)).map _ = List.range (s.calls + 1)
    rw [callsOf, List.filterMap_append, List.map_append, ← callsOf, h.ids,
      List.range_succ]
    rfl
  · intro u r hr
    rcases update_cases hr with ⟨-, ⟨⟩⟩ | ⟨-, hold⟩
    · exact ⟨List.mem_append_right _ List.mem_cons_self, fun _ => hfresh,
        nofun⟩
    · exact (h.running u r hold).mono hsub
  · intro u w r r' hu hw hid
    rcases update_cases hu with ⟨hut, ⟨⟩⟩ | ⟨-, hu⟩
    · rcases update_cases hw with ⟨hwt, ⟨⟩⟩ | ⟨-, hw⟩
      · rw [hut, hwt]
      · exact absurd hid.symm (hother hw)
    · rcases update_cases hw with ⟨-, ⟨⟩⟩ | ⟨-, hw⟩
      · exact absurd hid (hother hu)
      · exact h.distinct u w r r' hu hw hid
  · intro x hx
    obtain ⟨op', he⟩ := h.made x hx
    exact ⟨op', hsub he⟩
  · intro id value hret
    rcases List.mem_append.mp hret with hold | hnew
    · obtain ⟨x, hx, hid, op', he, hvalue⟩ := h.returned id value hold
      exact ⟨x, hx, hid, op', hsub he, hvalue⟩
    · cases List.mem_singleton.mp hnew
  · intro a b hp hb
    rcases hp.call with hold | ⟨rfl, -⟩
    · exact h.realTime a b hold hb
    · exact absurd hb hfresh
  · intro id op' mult' he
    rcases List.mem_append.mp he with hold | hnew
    · rcases h.pending id op' mult' hold with hlog | ⟨u, r, hr, hid⟩
      · exact Or.inl hlog
      · refine Or.inr ⟨u, r, ?_, hid⟩
        have hut : u ≠ t := by
          rintro rfl
          rw [hidle] at hr
          cases hr
        exact (Function.update_of_ne hut _ _).trans hr
    · cases List.mem_singleton.mp hnew
      exact Or.inr ⟨t, _, Function.update_self .., rfl⟩

/-- The call of one thread moves on within itself. -/
theorem Inv.distinct_update (h : Inv v s) {t : ι} {r r' : Running T}
    (hr : s.thread t = some r) (hid : r'.id = r.id) :
    ∀ u w q q', Function.update s.thread t (some r') u = some q →
      Function.update s.thread t (some r') w = some q' → q.id = q'.id →
      u = w := by
  intro u w q q' hu hw hq
  rcases update_cases hu with ⟨hut, ⟨⟩⟩ | ⟨-, hold⟩
  · rcases update_cases hw with ⟨hwt, ⟨⟩⟩ | ⟨-, hwold⟩
    · rw [hut, hwt]
    · rw [hut]
      exact h.distinct t w r q' hr hwold (hid.symm.trans hq)
  · rcases update_cases hw with ⟨hwt, ⟨⟩⟩ | ⟨-, hwold⟩
    · rw [hwt]
      exact h.distinct u t q r hold hr (hq.trans hid)
    · exact h.distinct u w q q' hold hwold hq

theorem Inv.pending_update (h : Inv v s) {t : ι} {r : Running T}
    (r' : Running T) (hr : s.thread t = some r) (hid : r'.id = r.id)
    {id : Nat} {op : Op} {mult : T} (he : Event.call id op mult ∈ s.history) :
    id ∈ s.log.map (·.id) ∨
      ∃ u q, Function.update s.thread t (some r') u = some q ∧ q.id = id := by
  rcases h.pending id op mult he with hlog | ⟨u, q, hq, hqid⟩
  · exact Or.inl hlog
  · right
    by_cases hut : u = t
    · subst hut
      rw [hr] at hq
      cases hq
      exact ⟨u, r', Function.update_self .., hid.trans hqid⟩
    · exact ⟨u, q, (Function.update_of_ne hut _ _).trans hq, hqid⟩

theorem Inv.expect (h : Inv v s) {t : ι} {r : Running T} (oldValue : T)
    (hr : s.thread t = some r) (hpc : ∀ oldValue, r.pc ≠ .ret oldValue) :
    Inv v (s.expect t r oldValue) := by
  refine ⟨h.ids, ?_, ?_, h.once, h.made, h.chained, h.returned, h.realTime, ?_⟩
  · intro u q hq
    rcases update_cases hq with ⟨-, ⟨⟩⟩ | ⟨-, hold⟩
    · have hfits := h.running t r hr
      exact ⟨hfits.called, fun _ => hfits.before hpc, nofun⟩
    · exact h.running u q hold
  · exact h.distinct_update hr rfl
  · intro id op mult he
    exact h.pending_update ⟨r.id, r.op, r.mult, .exchange oldValue⟩ hr rfl he

theorem Inv.exchange (h : Inv v s) {t : ι} {r : Running T}
    (hr : s.thread t = some r) (hpc : r.pc = .exchange s.shared) :
    Inv v (s.exchange t r s.shared) := by
  have hfits := h.running t r hr
  have hfirst : r.id ∉ s.log.map (·.id) := hfits.before (by simp [hpc])
  have hids : (s.exchange t r s.shared).log.map (·.id) =
      s.log.map (·.id) ++ [r.id] := List.map_append
  refine ⟨h.ids, ?_, h.distinct_update hr rfl, ?_, ?_, h.chained.concat, ?_,
    ?_, ?_⟩
  · intro u q hq
    rcases update_cases hq with ⟨-, ⟨⟩⟩ | ⟨hut, hold⟩
    · refine ⟨hfits.called, fun hne => absurd rfl (hne s.shared), ?_⟩
      rintro oldValue ⟨⟩
      exact List.mem_append_right _ List.mem_cons_self
    · have hq := h.running u q hold
      refine ⟨hq.called, ?_, ?_⟩
      · intro hne hmem
        rw [hids] at hmem
        rcases List.mem_append.mp hmem with hmem | hmem
        · exact hq.before hne hmem
        · exact hut (h.distinct u t q r hold hr (List.mem_singleton.mp hmem))
      · intro oldValue hret
        exact List.mem_append_left _ (hq.after oldValue hret)
  · rw [hids, ← List.concat_eq_append]
    exact h.once.concat hfirst
  · intro x hx
    rcases List.mem_append.mp hx with hold | hnew
    · exact h.made x hold
    · rw [List.mem_singleton.mp hnew]
      exact ⟨r.op, hfits.called⟩
  · intro id value hret
    obtain ⟨x, hx, hrest⟩ := h.returned id value hret
    exact ⟨x, List.mem_append_left _ hx, hrest⟩
  · intro a b hp hb
    rw [hids] at hb ⊢
    rcases List.mem_append.mp hb with hold | hnew
    · exact (h.realTime a b hp hold).trans (List.sublist_append_left _ _)
    · rw [List.mem_singleton.mp hnew]
      obtain ⟨value, hret⟩ := hp.mem_ret
      obtain ⟨x, hx, rfl, -⟩ := h.returned a value hret
      exact pair_sublist_of_mem (List.mem_map_of_mem hx)
  · intro id op mult he
    rw [hids]
    rcases h.pending_update ⟨r.id, r.op, r.mult, .ret s.shared⟩ hr rfl he with hlog | hthread
    · exact Or.inl (List.mem_append_left _ hlog)
    · exact Or.inr hthread

theorem Inv.ret (h : Inv v s) {t : ι} {r : Running T} {oldValue : T}
    (hr : s.thread t = some r) (hpc : r.pc = .ret oldValue) :
    Inv v (s.ret t r oldValue) := by
  have hfits := h.running t r hr
  have hlogged := hfits.after oldValue hpc
  have hsub : s.history ⊆
      s.history ++ [Event.ret r.id (r.op.result oldValue)] :=
    List.subset_append_left _ _
  refine ⟨?_, ?_, ?_, h.once, ?_, h.chained, ?_, ?_, ?_⟩
  · show (callsOf (s.history ++ _)).map _ = List.range s.calls
    rw [callsOf, List.filterMap_append, List.map_append, ← callsOf, h.ids]
    exact List.append_nil _
  · intro u q hq
    rcases update_cases hq with ⟨-, ⟨⟩⟩ | ⟨-, hold⟩
    exact (h.running u q hold).mono hsub
  · intro u w q q' hu hw hid
    rcases update_cases hu with ⟨-, ⟨⟩⟩ | ⟨-, hu⟩
    rcases update_cases hw with ⟨-, ⟨⟩⟩ | ⟨-, hw⟩
    exact h.distinct u w q q' hu hw hid
  · intro x hx
    obtain ⟨op, he⟩ := h.made x hx
    exact ⟨op, hsub he⟩
  · intro id value hret
    rcases List.mem_append.mp hret with hold | hnew
    · obtain ⟨x, hx, hid, op, he, hvalue⟩ := h.returned id value hold
      exact ⟨x, hx, hid, op, hsub he, hvalue⟩
    · cases List.mem_singleton.mp hnew
      exact ⟨_, hlogged, rfl, r.op, hsub hfits.called, rfl⟩
  · intro a b hp hb
    exact h.realTime a b hp.ret hb
  · intro id op mult he
    rcases List.mem_append.mp he with hold | hnew
    · rcases h.pending id op mult hold with hlog | ⟨u, q, hq, rfl⟩
      · exact Or.inl hlog
      · by_cases hut : u = t
        · -- the call that returns is in the log
          subst hut
          rw [hr] at hq
          cases hq
          exact Or.inl (List.mem_map.mpr ⟨_, hlogged, rfl⟩)
        · exact Or.inr ⟨u, q, (Function.update_of_ne hut _ _).trans hq, rfl⟩
    · cases List.mem_singleton.mp hnew

theorem Inv.step [DecidableEq T] (h : Inv v s) {a : Act ι T}
    (hs : step s a = some s') : Inv v s' := by
  cases step_steps hs with
  | call t op mult hidle => exact h.call t op mult hidle
  | expect t r hr hpc => exact h.expect s.shared hr hpc
  | exchange t r hr hpc => exact h.exchange hr hpc
  | ret t r oldValue hr hpc => exact h.ret hr hpc

/-! ## The main result -/

omit [DecidableEq ι] in
/-- When nothing is under way, the log has the calls of the history. -/
theorem Inv.log_perm (h : Inv v s) (hidle : ∀ t, s.thread t = none) :
    (s.log.map fun x => (x.id, x.mult)).Perm (callsOf s.history) := by
  have hcalls : ((callsOf s.history).map (·.1)).Nodup := by
    rw [h.ids]
    exact List.nodup_range
  have hlog : ((s.log.map fun x => (x.id, x.mult)).map (·.1)).Nodup := by
    rw [List.map_map]
    exact h.once
  rw [List.perm_ext_iff_of_nodup hlog.of_map hcalls.of_map]
  intro ⟨id, m⟩
  constructor
  · intro hmem
    obtain ⟨x, hx, ⟨⟩⟩ := List.mem_map.mp hmem
    exact mem_callsOf.mpr (h.made x hx)
  · intro hmem
    obtain ⟨op, he⟩ := mem_callsOf.mp hmem
    rcases h.pending id op m he with hid | ⟨t, r, hr, -⟩
    · obtain ⟨x, hx, rfl⟩ := List.mem_map.mp hid
      have hsame := List.inj_on_of_nodup_map hcalls hmem
        (mem_callsOf.mpr (h.made x hx)) rfl
      rw [hsame]
      exact List.mem_map_of_mem hx
    · rw [hidle t] at hr
      cases hr

/-- However the loads and the exchanges of the threads alternate, the order of
the successful exchanges explains the history, and no factor is lost. -/
theorem multiply_linearizable {ι T : Type*} [DecidableEq ι] [DecidableEq T]
    [CommMonoid T] {v : T} {s : State ι T} {acts : List (Act ι T)}
    (hrun : exec step (State.init v) acts = some s) : Linearised v s := by
  have h : Inv v s := exec_inv (fun _ _ _ h hs => h.step hs) inv_init hrun
  refine ⟨h.once, h.made, h.chained, h.returned, h.realTime, ?_⟩
  intro hidle
  have hperm := ((h.log_perm hidle).map (·.2)).prod_eq
  rw [List.map_map] at hperm
  rw [← hperm]
  exact h.chained.eq_prod

/-- Between the load of one thread and its exchange, another one multiplies
the variable by a factor that brings the same value back. -/
def sameValue : List (Act Bool (BitVec 8)) :=
  [ .call true .mulAssign 3, .move true, .call false .fetchMult 129,
    .move false, .move false, .move true, .move false, .move true ]

theorem multiply_linearizable_same : ∃ s,
    exec step (State.init (2 : BitVec 8)) sameValue = some s ∧ s.shared = 6 ∧
      s.log = [⟨1, 129, 2⟩, ⟨0, 3, 2⟩] ∧
      Event.ret 1 (some 2) ∈ s.history ∧ Linearised 2 s := by
  have hrun : (exec step (State.init (2 : BitVec 8)) sameValue).map
      (fun s => (s.shared, s.log, s.history.contains (.ret 1 (some 2)))) =
        some (6, [⟨1, 129, 2⟩, ⟨0, 3, 2⟩], true) := by
    decide +kernel
  obtain ⟨s, hs, hres⟩ := Option.map_eq_some_iff.mp hrun
  simp only [Prod.mk.injEq, List.contains_iff_mem] at hres
  exact ⟨s, hs, hres.1, hres.2.1, hres.2.2, multiply_linearizable hs⟩

end LearningLinux.AtomicMultiply
