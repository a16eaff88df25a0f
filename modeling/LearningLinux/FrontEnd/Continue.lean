import LearningLinux.FrontEnd.Translation

/-!
# Where `continue` goes

`Continue.gen` jumps to the label `begin` of the loop it points to, which
`While.gen` finds in front of the condition and `Do.gen` in front of the body.
To say which of the two a jump reaches, the generator is run once more with a
note of where each `continue` stands and where the code of the condition of
its innermost loop starts; it makes the same code.
-/

namespace LearningLinux.FrontEnd

open Lib

/-! ## The generator with notes -/

/-- A `continue`: where its `goto` stands, the condition of its innermost loop
and where the code of that starts, and the label in front of the body. -/
structure Site where
  jump : Nat
  test : Nat
  cond : Expr
  body : Nat

/-- The `continue` instructions of a piece of code: those of the loop around
it, and those of the loops in it. -/
structure Continues where
  own : List Nat
  inner : List Site

def Continues.append (r r' : Continues) : Continues :=
  ⟨r.own ++ r'.own, r.inner ++ r'.inner⟩

/-- Those of a loop, from those of its body. -/
def Continues.close (r : Continues) (c : Nat) (x : Expr) (label : Nat) :
    Continues :=
  ⟨[], r.own.map (fun q => ⟨q, c, x, label⟩) ++ r.inner⟩

/-- Where the next item will stand. -/
def here : G Nat := fun s => .ok (s.out.length, s)

def Stmt.genContinues : Stmt → Nat → Nat → G Continues
  | .if x s, _, a => do
      let label ← newlabel
      x.jumping 0 a
      emitlabel label
      s.genContinues label a
  | .else x s1 s2, _, a => do
      let label1 ← newlabel
      let label2 ← newlabel
      x.jumping 0 label2
      emitlabel label1
      let r1 ← s1.genContinues label1 a
      emit (.goto a)
      emitlabel label2
      let r2 ← s2.genContinues label2 a
      pure (r1.append r2)
  | .while loop x s, b, a => do
      setLoop loop b a
      let c ← here
      x.jumping 0 a
      let label ← newlabel
      emitlabel label
      let r ← s.genContinues label b
      emit (.goto b)
      pure (r.close c x label)
  | .do loop s x, b, a => do
      setLoop loop b a
      let label ← newlabel
      let r ← s.genContinues b label
      emitlabel label
      let c ← here
      x.jumping b 0
      pure (r.close c x b)
  | .continue loop, _, _ => do
      let (begin, _) ← getLoop loop
      let q ← here
      emit (.goto begin)
      pure ⟨[q], []⟩
  | .seq s1 s2, b, a =>
      if s1 = .null then s2.genContinues b a
      else if s2 = .null then s1.genContinues b a
      else do
        let label ← newlabel
        let r1 ← s1.genContinues b label
        emitlabel label
        let r2 ← s2.genContinues label a
        pure (r1.append r2)
  | s, b, a => do
      s.gen b a
      pure ⟨[], []⟩

/-- `genProgram`, with notes. -/
def genProgramContinues (s : Stmt) : G Continues := do
  let begin ← newlabel
  let after ← newlabel
  emitlabel begin
  let r ← s.genContinues begin after
  emitlabel after
  pure r

/-- The `continue` instructions of a program. -/
def Output.continues (o : Output) : List Site :=
  match genProgramContinues o.stmt GState.init with
  | .ok (r, _) => r.inner
  | .error _ => []

/-- How many `continue` statements there are. -/
def Stmt.countContinues : Stmt → Nat
  | .if _ s => s.countContinues
  | .else _ s1 s2 => s1.countContinues + s2.countContinues
  | .while _ _ s => s.countContinues
  | .do _ s _ => s.countContinues
  | .continue _ => 1
  | .seq s1 s2 => s1.countContinues + s2.countContinues
  | _ => 0

/-! ## The same code -/

theorem forget_bind {α β : Type} {x : G α} {y : G Unit}
    (h : (x >>= fun _ => pure ()) = y) (m : G β) :
    (x >>= fun _ => m) = y >>= fun _ => m := by
  rw [← h, bind_assoc]
  simp only [pure_bind]

theorem here_bind {β : Type} (m : G β) : (here >>= fun _ => m) = m := rfl

theorem Stmt.genContinues_forget (s : Stmt) (b a : Nat) :
    (s.genContinues b a >>= fun _ => pure ()) = s.gen b a := by
  induction s generalizing b a with
  | null => rfl
  | set i x => simp [Stmt.genContinues]
  | setElem c i x => simp [Stmt.genContinues]
  | «if» x s ih => simp only [Stmt.genContinues, Stmt.gen, bind_assoc, ih]
  | «else» x s1 s2 ih1 ih2 =>
      simp only [Stmt.genContinues, Stmt.gen, bind_assoc, pure_bind, ih2,
        forget_bind (ih1 _ _)]
  | «while» l x s ih =>
      simp only [Stmt.genContinues, Stmt.gen, bind_assoc, pure_bind,
        forget_bind (ih _ _), here_bind]
      simp
  | «do» l s x ih =>
      simp only [Stmt.genContinues, Stmt.gen, bind_assoc, pure_bind,
        forget_bind (ih _ _), here_bind]
      simp
  | «break» l => simp [Stmt.genContinues]
  | «continue» l =>
      simp only [Stmt.genContinues, Stmt.gen, bind_assoc, pure_bind, here_bind]
      simp
  | seq s1 s2 ih1 ih2 =>
      rw [Stmt.genContinues, Stmt.gen]
      split
      · exact ih2 b a
      · split
        · exact ih1 b a
        · simp only [bind_assoc, pure_bind, ih2, forget_bind (ih1 _ _)]

theorem Stmt.gen_of_genContinues {s : Stmt} {b a : Nat} {st st' : GState}
    {r : Continues} (h : s.genContinues b a st = .ok (r, st')) :
    s.gen b a st = .ok ((), st') := by
  rw [← s.genContinues_forget, bind_run h]
  rfl

theorem Stmt.genContinues_of_gen {s : Stmt} {b a : Nat} {st st' : GState}
    (h : s.gen b a st = .ok ((), st')) :
    ∃ r, s.genContinues b a st = .ok (r, st') := by
  rw [← s.genContinues_forget, bind_ok] at h
  obtain ⟨r, st₁, hrun, hpure⟩ := h
  cases hpure
  exact ⟨r, hrun⟩

/-! ## Testing the condition again -/

variable {V : Type} [DecidableEq V] {I : Interp V} {code : List Item}

/-- The instruction at `q` jumps to `c`, or to labels in front of it. -/
def Retests (I : Interp V) (code : List Item) (q c : Nat) : Prop :=
  ∀ m T, ∃ p, mstep I code ⟨q, m, T⟩ = some ⟨p, m, T⟩ ∧ p ≤ c ∧
    ∀ i, p ≤ i → i < c → ∃ l, code[i]? = some (.label l)

/-- Nothing is executed between the jump and the condition. -/
theorem Retests.reaches {q c : Nat} (h : Retests I code q c) (m : Mem V)
    (T : Nat → V) : Reaches (mstep I code) ⟨q, m, T⟩ ⟨c, m, T⟩ := by
  obtain ⟨p, hstep, hle, hlabels⟩ := h m T
  obtain ⟨n, rfl⟩ := Nat.exists_eq_add_of_le hle
  refine (Reaches.single hstep).trans ?_
  clear h hstep hle
  induction n with
  | zero => exact Reaches.refl _
  | succ n ih =>
      obtain ⟨l, hl⟩ := hlabels (p + n) (by omega) (by omega)
      refine (ih fun i hlo hhi => hlabels i hlo (by omega)).trans ?_
      exact Reaches.single (mstep_label hl m T)

theorem retests_iff (hd : Disciplined code) {q c l : Nat}
    (hq : code[q]? = some (.instr (.goto l))) :
    Retests I code q c ↔ pos code l ≤ c ∧
      ∀ i, pos code l ≤ i → i < c → ∃ l', code[i]? = some (.label l') := by
  constructor
  · intro h
    obtain ⟨p, hstep, hle, hlabels⟩ :=
      h ⟨fun _ => I.tt, fun _ _ => I.tt⟩ fun _ => I.tt
    rw [mstep_goto hd hq] at hstep
    cases hstep
    exact ⟨hle, hlabels⟩
  · intro ⟨hle, hlabels⟩ m T
    exact ⟨pos code l, mstep_goto hd hq m T, hle, hlabels⟩

/-- `While.gen`: the label stands in front of the condition. -/
theorem retests_while (hd : Disciplined code) {q c l : Nat}
    (hq : code[q]? = some (.instr (.goto l))) (hc : pos code l + 1 = c)
    (hl : code[pos code l]? = some (.label l)) : Retests I code q c := by
  refine (retests_iff hd hq).mpr ⟨by omega, ?_⟩
  intro i hlo hhi
  have hi : i = pos code l := by omega
  exact ⟨l, hi ▸ hl⟩

/-- `Do.gen`: the jump itself stands between the label and the condition. -/
theorem not_retests_do (hd : Disciplined code) {q c l : Nat}
    (hq : code[q]? = some (.instr (.goto l))) (hl : pos code l ≤ q)
    (hc : q < c) : ¬ Retests I code q c := by
  intro h
  obtain ⟨l', hl'⟩ := ((retests_iff hd hq).mp h).2 q hl hc
  rw [hq] at hl'
  cases hl'

/-! ## The notes of a statement -/

/-- What has been put out ends with the label `b`. -/
def AtLabel (st : GState) (b : Nat) : Prop := ∃ k, st.out = k ++ [Item.label b]

theorem AtLabel.pos (hd : Disciplined code) {st : GState} {b : Nat}
    (h : AtLabel st b) (hpre : st.out <+: code) :
    pos code b + 1 = st.out.length ∧ code[pos code b]? = some (.label b) := by
  obtain ⟨k, hk⟩ := h
  have hseg : Segment code 0 (k ++ [Item.label b]) := hk ▸ hpre
  have hpos := pos_of_segment hd hseg.right
  have hhead := hseg.right.head
  rw [← hpos] at hhead
  refine ⟨?_, hhead⟩
  rw [hpos, hk, List.length_append, List.length_singleton, Nat.zero_add]

theorem AtLabel.after {α : Type} {lo b : Nat} {m : G α} {x : α}
    {st st' : GState} {calls : List (Nat × Nat)} (h : AtLabel st b)
    (hrun : RanIn lo m st x st' ⟨[], calls⟩) : AtLabel st' b := by
  obtain ⟨k, hk⟩ := h
  exact ⟨k, by rw [hrun.out, hk, List.append_nil]⟩

/-- From the start of its code on, the condition decides whether the body is
entered. -/
def Site.Guarded (I : Interp V) (code : List Item) (p : Site) : Prop :=
  p.cond.noLogicalOperand = true →
    ∃ no, Tests I code p.test p.cond (pos code p.body) no

/-- The notes `r` that the generator makes between `st` and `st'`. -/
structure Notes (I : Interp V) (code : List Item) (s : Stmt) (begin : Nat)
    (st st' : GState) (r : Continues) : Prop where
  own : ∀ q ∈ r.own, st.out.length ≤ q ∧ q < st'.out.length ∧
    code[q]? = some (.instr (.goto begin))
  guarded : ∀ p ∈ r.inner, p.Guarded I code
  retests : ∀ inDo, ((inDo = true → r.own = []) ∧
    ∀ p ∈ r.inner, Retests I code p.jump p.test) ↔
      s.noDoContinue inDo = true
  count : r.own.length + r.inner.length = s.countContinues

/-- A statement without loops and `continue`. -/
theorem notes_nil {s : Stmt} {begin b a : Nat} {st st' : GState}
    {r : Continues} (hs : ∀ inDo, s.noDoContinue inDo = true)
    (hcount : s.countContinues = 0)
    (h : (s.gen b a >>= fun _ => pure ⟨[], []⟩ : G Continues) st =
      .ok (r, st')) : Notes I code s begin st st' r := by
  obtain ⟨-, st₁, -, hpure⟩ := bind_ok.mp h
  cases pure_ok.mp hpure
  refine ⟨(fun q hq => nomatch hq), (fun p hp => nomatch hp), fun inDo => ?_,
    hcount.symm⟩
  simp [hs inDo]

/-- The output in the middle of the code of a program. -/
theorem prefix_of_ranIn {α : Type} {lo : Nat} {m : G α} {x : α}
    {st st' : GState} {k : Chunk} (h : RanIn lo m st x st' k)
    (hpre : st'.out <+: code) : st.out <+: code := by
  rw [h.out] at hpre
  exact (List.prefix_append _ _).trans hpre

theorem Stmt.genContinues_ranIn {s : Stmt} (hw : s.WellTyped)
    {cur : Option Nat} {lo : Nat} (hin : s.LoopsIn cur lo) {b a : Nat}
    {loop : Nat × Nat} {st st' : GState} {r : Continues}
    (henc : Encloses cur lo loop st)
    (h : s.genContinues b a st = .ok (r, st')) :
    ∃ k, RanIn lo (s.genContinues b a) st r st' k := by
  obtain ⟨st₁, k, -, hrun⟩ := Stmt.gen_run hw hin b a henc
  have hgen := hrun.run.symm.trans (Stmt.gen_of_genContinues h)
  cases hgen
  exact ⟨k, h, hrun.out, hrun.calls, hrun.loops⟩

theorem RanIn.length_le {α : Type} {lo : Nat} {m : G α} {x : α}
    {st st' : GState} {k : Chunk} (h : RanIn lo m st x st' k) :
    st.out.length ≤ st'.out.length := by
  rw [h.out, List.length_append]
  exact Nat.le_add_right _ _

/-- The rest of a method, its first step being known. -/
theorem RanIn.rest {α β : Type} {lo : Nat} {m : G α} {f : α → G β} {x : α}
    {st st' : GState} {k : Chunk} (h : RanIn lo m st x st' k)
    {r : β × GState} (hrun : (m >>= f) st = .ok r) : f x st' = .ok r := by
  rwa [bind_run h.run] at hrun

theorem ranIn_newlabel (lo : Nat) (st : GState) :
    ∃ l st', l ≠ 0 ∧ RanIn lo newlabel st l st' ⟨[], []⟩ :=
  ⟨_, _, Nat.succ_ne_zero _, Ran.ranIn ran_newlabel⟩

theorem ranIn_emitlabel (lo l : Nat) (st : GState) :
    ∃ st', RanIn lo (emitlabel l) st () st' ⟨[.label l], []⟩ :=
  ⟨_, Ran.ranIn (ran_emitlabel l)⟩

theorem ranIn_here (lo : Nat) (st : GState) :
    RanIn lo here st st.out.length st ⟨[], []⟩ :=
  ⟨rfl, (List.append_nil _).symm, (List.append_nil _).symm, fun _ _ => rfl⟩

theorem ranIn_goto (lo l : Nat) (st : GState) :
    ∃ st', RanIn lo (emit (.goto l)) st () st' ⟨[.instr (.goto l)], []⟩ :=
  ⟨_, Ran.ranIn (ran_emit _)⟩

theorem ranIn_jumping {x : Expr} (hw : x.WellTyped)
    (hb : x.type = some .bool) (t f lo : Nat) (st : GState) :
    ∃ st' k, Jumps x t f st.counters st'.counters k ∧
      RanIn lo (x.jumping t f) st () st' k := by
  obtain ⟨σ, k, hjumps, hrun⟩ := Expr.jumping_run hw hb t f st.counters
  exact ⟨st.add σ k, k, hjumps, hrun.ranIn⟩

/-- What has been put out stands in the code. -/
theorem RanIn.segment {α : Type} {lo : Nat} {m : G α} {x : α}
    {st st' : GState} {k : Chunk} (h : RanIn lo m st x st' k)
    (hpre : st'.out <+: code) : Segment code st.out.length k.items := by
  have hseg : Segment code 0 (st.out ++ k.items) := h.out ▸ hpre
  have hright := hseg.right
  rwa [Nat.zero_add] at hright

section Combine

variable {s s1 s2 : Stmt} {begin : Nat} {st st₁ st₂ st' : GState}
  {r r1 r2 : Continues}

theorem Notes.widen (h : Notes I code s begin st₁ st₂ r)
    (hlo : st.out.length ≤ st₁.out.length)
    (hhi : st₂.out.length ≤ st'.out.length) :
    Notes I code s begin st st' r := by
  refine ⟨?_, h.guarded, h.retests, h.count⟩
  intro q hq
  obtain ⟨hle, hlt, hget⟩ := h.own q hq
  exact ⟨by omega, by omega, hget⟩

theorem Notes.append (h1 : Notes I code s1 begin st st' r1)
    (h2 : Notes I code s2 begin st st' r2)
    (hs : ∀ inDo, s.noDoContinue inDo =
      (s1.noDoContinue inDo && s2.noDoContinue inDo))
    (hcount : s.countContinues = s1.countContinues + s2.countContinues) :
    Notes I code s begin st st' (r1.append r2) := by
  constructor
  · intro q hq
    rcases List.mem_append.mp hq with hq | hq
    · exact h1.own q hq
    · exact h2.own q hq
  · exact List.forall_mem_append.mpr ⟨h1.guarded, h2.guarded⟩
  · intro inDo
    rw [hs, Bool.and_eq_true, ← h1.retests, ← h2.retests, Continues.append]
    simp only [List.append_eq_nil_iff, List.forall_mem_append]
    tauto
  · rw [hcount, ← h1.count, ← h2.count, Continues.append]
    simp only [List.length_append]
    omega

/-- A loop, from its body: all jumps out of it go to the condition, or none
does. -/
theorem Notes.close (h : Notes I code s begin st₁ st₂ r) (inDo : Bool)
    {c b' l : Nat} {x : Expr}
    (hs : ∀ b, s1.noDoContinue b = s.noDoContinue inDo)
    (hcount : s1.countContinues = s.countContinues)
    (hguard : ∀ q, Site.Guarded I code ⟨q, c, x, l⟩)
    (hown : ∀ q ∈ r.own, Retests I code q c ↔ inDo = false) :
    Notes I code s1 b' st st' (r.close c x l) := by
  refine ⟨(fun q hq => nomatch hq), ?_, fun b => ?_, ?_⟩
  · refine List.forall_mem_append.mpr ⟨?_, h.guarded⟩
    exact List.forall_mem_map.mpr fun q _ => hguard q
  · rw [hs, ← h.retests, Continues.close]
    simp only [List.forall_mem_append, List.forall_mem_map, implies_true,
      true_and]
    refine and_congr_left fun _ => ?_
    constructor
    · intro hall hdo
      refine List.eq_nil_iff_forall_not_mem.mpr fun q hq => ?_
      have hfalse := (hown q hq).mp (hall q hq)
      rw [hdo] at hfalse
      cases hfalse
    · intro hnil q hq
      cases inDo with
      | false => exact (hown q hq).mpr rfl
      | true =>
          rw [hnil rfl] at hq
          cases hq
  · rw [hcount, ← h.count, Continues.close]
    simp only [List.length_append, List.length_map, List.length_nil,
      Nat.zero_add]

end Combine

/-- What the generator notes for a statement, wherever it stands. -/
def Noted (I : Interp V) (code : List Item) (s : Stmt) : Prop :=
  ∀ {cur : Option Nat} {lo b a : Nat} {loop : Nat × Nat} {st st' : GState}
    {r : Continues}, s.WellTyped → s.LoopsIn cur lo →
    Encloses cur lo loop st → AtLabel st b → b ≠ 0 → a ≠ 0 →
    s.genContinues b a st = .ok (r, st') → st'.out <+: code →
    Notes I code s loop.1 st st' r

section Cases

variable {s s1 s2 : Stmt} {x : Expr} {l : Nat}

theorem noted_if (ih : Noted I code s) : Noted I code (.if x s) := by
  intro cur lo b a loop st st' r hw hin henc hlabel hb ha h hpre
  obtain ⟨hwx, hbx, hws⟩ := hw
  obtain ⟨l, st₁, hl, hnew⟩ := ranIn_newlabel lo st
  obtain ⟨st₂, k, -, hjump⟩ := ranIn_jumping hwx hbx 0 a lo st₁
  obtain ⟨st₃, hlab⟩ := ranIn_emitlabel lo l st₂
  have hs := hlab.rest (hjump.rest (hnew.rest h))
  have hnotes := ih hws hin (((henc.after hnew).after hjump).after hlab)
    ⟨_, hlab.out⟩ hl ha hs hpre
  have hle := Nat.le_trans hnew.length_le
    (Nat.le_trans hjump.length_le hlab.length_le)
  have hwide := hnotes.widen hle (Nat.le_refl _)
  exact ⟨hwide.own, hwide.guarded, hwide.retests, hwide.count⟩

theorem noted_else (ih1 : Noted I code s1) (ih2 : Noted I code s2) :
    Noted I code (.else x s1 s2) := by
  intro cur lo b a loop st st' r hw hin henc hlabel hb ha h hpre
  obtain ⟨hwx, hbx, hws1, hws2⟩ := hw
  obtain ⟨l₁, st₁, hl₁, hnew₁⟩ := ranIn_newlabel lo st
  obtain ⟨l₂, st₂, hl₂, hnew₂⟩ := ranIn_newlabel lo st₁
  obtain ⟨st₃, k, -, hjump⟩ := ranIn_jumping hwx hbx 0 l₂ lo st₂
  obtain ⟨st₄, hlab₁⟩ := ranIn_emitlabel lo l₁ st₃
  have hrest := hlab₁.rest (hjump.rest (hnew₂.rest (hnew₁.rest h)))
  obtain ⟨r1, st₅, h1, hrest₅⟩ := bind_ok.mp hrest
  obtain ⟨st₆, hgoto⟩ := ranIn_goto lo a st₅
  obtain ⟨st₇, hlab₂⟩ := ranIn_emitlabel lo l₂ st₆
  obtain ⟨r2, st₈, h2, hpure⟩ := bind_ok.mp (hlab₂.rest (hgoto.rest hrest₅))
  cases pure_ok.mp hpure
  have henc₁ := (((henc.after hnew₁).after hnew₂).after hjump).after hlab₁
  obtain ⟨k₁, hrun₁⟩ := Stmt.genContinues_ranIn hws1 hin.1 henc₁ h1
  have henc₂ := ((henc₁.after hrun₁).after hgoto).after hlab₂
  obtain ⟨k₂, hrun₂⟩ := Stmt.genContinues_ranIn hws2 hin.2 henc₂ h2
  have hpre₁ : st₅.out <+: code :=
    prefix_of_ranIn hgoto (prefix_of_ranIn hlab₂ (prefix_of_ranIn hrun₂ hpre))
  have hnotes₁ := ih1 hws1 hin.1 henc₁ ⟨_, hlab₁.out⟩ hl₁ ha h1 hpre₁
  have hnotes₂ := ih2 hws2 hin.2 henc₂ ⟨_, hlab₂.out⟩ hl₂ ha h2 hpre
  have hle₁ := hnew₁.length_le
  have hle₂ := hnew₂.length_le
  have hle₃ := hjump.length_le
  have hle₄ := hlab₁.length_le
  have hle₅ := hrun₁.length_le
  have hle₆ := hgoto.length_le
  have hle₇ := hlab₂.length_le
  have hle₈ := hrun₂.length_le
  exact (hnotes₁.widen (by omega) (by omega)).append
    (hnotes₂.widen (by omega) (by omega)) (fun _ => rfl) rfl

theorem noted_while (hd : Disciplined code) (ih : Noted I code s) :
    Noted I code (.while l x s) := by
  intro cur lo b a loop st st' r hw hin henc hlabel hb ha h hpre
  obtain ⟨hwx, hbx, hws⟩ := hw
  obtain ⟨st₁, hset, hloop, -⟩ := ranIn_setLoop b a st hin.1
  have hhere := ranIn_here (l + 1) st₁
  obtain ⟨st₂, k, hjumps, hjump⟩ := ranIn_jumping hwx hbx 0 a (l + 1) st₁
  obtain ⟨l₁, st₃, hl₁, hnew⟩ := ranIn_newlabel (l + 1) st₂
  obtain ⟨st₄, hlab⟩ := ranIn_emitlabel (l + 1) l₁ st₃
  have hrest := hlab.rest (hnew.rest (hjump.rest
    (hhere.rest (hset.rest h))))
  obtain ⟨r', st₅, hs, hrest₅⟩ := bind_ok.mp hrest
  obtain ⟨st₆, hgoto⟩ := ranIn_goto (l + 1) b st₅
  have hpure := hgoto.rest hrest₅
  cases pure_ok.mp hpure
  have henc₁ := (((Encloses.inside hloop).after hjump).after hnew).after hlab
  obtain ⟨k₁, hrun⟩ := Stmt.genContinues_ranIn hws hin.2 henc₁ hs
  have hpre₅ := prefix_of_ranIn hgoto hpre
  have hpre₄ := prefix_of_ranIn hrun hpre₅
  have hpre₂ := prefix_of_ranIn hnew (prefix_of_ranIn hlab hpre₄)
  have hpre₁ := prefix_of_ranIn hjump hpre₂
  have hnotes := ih hws hin.2 henc₁ ⟨_, hlab.out⟩ hl₁ hb hs hpre₅
  obtain ⟨hpos, hget⟩ := (hlabel.after hset).pos hd hpre₁
  refine hnotes.close false (fun _ => rfl) rfl ?_ fun q hq => ?_
  · intro q hplain
    have hbody := pos_of_segment hd (hlab.segment hpre₄)
    refine ⟨pos code a, ?_⟩
    show Tests I code st₁.out.length x (pos code l₁) (pos code a)
    rw [hbody, hnew.out, List.append_nil, hjump.out, List.length_append]
    exact tests_of_jumps hd hjumps hwx hplain ha (hjump.segment hpre₂)
  · exact iff_of_true (retests_while hd (hnotes.own q hq).2.2 hpos hget) rfl

theorem noted_do (hd : Disciplined code) (ih : Noted I code s) :
    Noted I code (.do l s x) := by
  intro cur lo b a loop st st' r hw hin henc hlabel hb ha h hpre
  obtain ⟨hwx, hbx, hws⟩ := hw
  obtain ⟨st₁, hset, hloop, -⟩ := ranIn_setLoop b a st hin.1
  obtain ⟨l₁, st₂, hl₁, hnew⟩ := ranIn_newlabel (l + 1) st₁
  obtain ⟨r', st₃, hs, hrest⟩ := bind_ok.mp (hnew.rest (hset.rest h))
  obtain ⟨st₄, hlab⟩ := ranIn_emitlabel (l + 1) l₁ st₃
  have hhere := ranIn_here (l + 1) st₄
  obtain ⟨st₅, k, hjumps, hjump⟩ := ranIn_jumping hwx hbx b 0 (l + 1) st₄
  have hpure := hjump.rest (hhere.rest (hlab.rest hrest))
  cases pure_ok.mp hpure
  have henc₁ := (Encloses.inside hloop).after hnew
  obtain ⟨k₁, hrun⟩ := Stmt.genContinues_ranIn hws hin.2 henc₁ hs
  have hpre₃ := prefix_of_ranIn hlab (prefix_of_ranIn hjump hpre)
  have hlabel₁ := (hlabel.after hset).after hnew
  have hnotes := ih hws hin.2 henc₁ hlabel₁ hb hl₁ hs hpre₃
  obtain ⟨hpos, -⟩ := hlabel₁.pos hd (prefix_of_ranIn hrun hpre₃)
  have hle := hlab.length_le
  refine hnotes.close true (fun _ => rfl) rfl ?_ fun q hq => ?_
  · intro q hplain
    refine ⟨st₄.out.length + k.items.length, fun m T => ?_⟩
    refine (run_jumps hd hjumps hwx hplain (.inl hb)
      (hjump.segment hpre) m T).mono ?_
    rintro c s ⟨T', rfl⟩
    refine ⟨T', ?_⟩
    cases c with
    | true => rw [if_pos rfl, dest_of_ne hb, if_pos rfl]
    | false =>
        rw [if_neg Bool.false_ne_true, dest_zero,
          if_neg Bool.false_ne_true]
  · obtain ⟨hlo, hhi, hget⟩ := hnotes.own q hq
    refine iff_of_false (not_retests_do hd hget ?_ ?_) Bool.noConfusion
    · show pos code b ≤ q
      omega
    · omega

theorem noted_continue : Noted I code (.continue l) := by
  intro cur lo b a loop st st' r hw hin henc hlabel hb ha h hpre
  obtain ⟨-, hloop⟩ := henc l hin
  have hget : RanIn lo (getLoop l) st (st.loops l) st ⟨[], []⟩ :=
    ⟨rfl, (List.append_nil _).symm, (List.append_nil _).symm,
      fun _ _ => rfl⟩
  have hhere := ranIn_here lo st
  obtain ⟨st₁, hgoto⟩ := ranIn_goto lo (st.loops l).1 st
  have hpure := hgoto.rest (hhere.rest (hget.rest h))
  cases pure_ok.mp hpure
  rw [hloop] at hgoto
  refine ⟨?_, (fun p hp => nomatch hp), ?_, rfl⟩
  · intro q hq
    cases List.mem_singleton.mp hq
    refine ⟨Nat.le_refl _, ?_, (hgoto.segment hpre).head⟩
    rw [hgoto.out, List.length_append]
    exact Nat.lt_succ_self _
  · intro inDo
    cases inDo <;> simp [Stmt.noDoContinue]

theorem noted_seq (ih1 : Noted I code s1) (ih2 : Noted I code s2) :
    Noted I code (.seq s1 s2) := by
  intro cur lo b a loop st st' r hw hin henc hlabel hb ha h hpre
  rw [Stmt.genContinues] at h
  by_cases hn1 : s1 = .null
  · rw [if_pos hn1] at h
    subst hn1
    have hnotes := ih2 hw.2 hin.2 henc hlabel hb ha h hpre
    refine ⟨hnotes.own, hnotes.guarded, hnotes.retests, ?_⟩
    exact hnotes.count.trans (Nat.zero_add _).symm
  · rw [if_neg hn1] at h
    by_cases hn2 : s2 = .null
    · rw [if_pos hn2] at h
      subst hn2
      have hnotes := ih1 hw.1 hin.1 henc hlabel hb ha h hpre
      refine ⟨hnotes.own, hnotes.guarded, fun inDo =>
        (hnotes.retests inDo).trans ?_, hnotes.count⟩
      simp [Stmt.noDoContinue]
    · rw [if_neg hn2] at h
      obtain ⟨l, st₁, hl, hnew⟩ := ranIn_newlabel lo st
      obtain ⟨r1, st₂, h1, hrest⟩ := bind_ok.mp (hnew.rest h)
      obtain ⟨st₃, hlab⟩ := ranIn_emitlabel lo l st₂
      obtain ⟨r2, st₄, h2, hpure⟩ := bind_ok.mp (hlab.rest hrest)
      cases pure_ok.mp hpure
      have henc₁ := henc.after hnew
      obtain ⟨k₁, hrun₁⟩ := Stmt.genContinues_ranIn hw.1 hin.1 henc₁ h1
      have henc₂ := (henc₁.after hrun₁).after hlab
      obtain ⟨k₂, hrun₂⟩ := Stmt.genContinues_ranIn hw.2 hin.2 henc₂ h2
      have hpre₁ := prefix_of_ranIn hlab (prefix_of_ranIn hrun₂ hpre)
      have hnotes₁ := ih1 hw.1 hin.1 henc₁ (hlabel.after hnew) hb hl h1
        hpre₁
      have hnotes₂ := ih2 hw.2 hin.2 henc₂ ⟨_, hlab.out⟩ hl ha h2 hpre
      have hle₁ := hnew.length_le
      have hle₂ := hrun₁.length_le
      have hle₃ := hlab.length_le
      have hle₄ := hrun₂.length_le
      exact (hnotes₁.widen (by omega) (by omega)).append
        (hnotes₂.widen (by omega) (by omega)) (fun _ => rfl) rfl

end Cases

theorem Stmt.genContinues_notes (hd : Disciplined code) {s : Stmt} :
    Noted I code s := by
  induction s with
  | «if» x s ih => exact noted_if ih
  | «else» x s1 s2 ih1 ih2 => exact noted_else ih1 ih2
  | «while» l x s ih => exact noted_while hd ih
  | «do» l s x ih => exact noted_do hd ih
  | «continue» l => exact noted_continue
  | seq s1 s2 ih1 ih2 => exact noted_seq ih1 ih2
  | _ =>
      intro cur lo b a loop st st' r hw hin henc hlabel hb ha h hpre
      exact notes_nil (fun _ => rfl) rfl h

/-! ## Accepted programs -/

/-- The state in which the code of the block is generated. -/
def atBlock : GState := GState.init.add ⟨2, 0⟩ ⟨[.label 1], []⟩

theorem genProgramContinues_run {s : Stmt} {labels : Nat × Nat} {g : GState}
    (h : genProgram s GState.init = .ok (labels, g)) : ∃ r st,
      genProgramContinues s GState.init = .ok (r, g) ∧
        s.genContinues 1 2 atBlock = .ok (r, st) ∧ st.out <+: g.out := by
  have hprogram : genProgram s GState.init = (s.gen 1 2 >>= fun _ =>
      emitlabel 2 >>= fun _ => pure (1, 2)) atBlock := rfl
  rw [hprogram] at h
  obtain ⟨⟨⟩, st, hgen, hrest⟩ := bind_ok.mp h
  obtain ⟨st', hlab⟩ := ranIn_emitlabel 0 2 st
  have hpure := hlab.rest hrest
  cases pure_ok.mp hpure
  obtain ⟨r, hr⟩ := Stmt.genContinues_of_gen hgen
  refine ⟨r, st, ?_, hr, prefix_of_ranIn hlab List.prefix_rfl⟩
  have hcontinues : genProgramContinues s GState.init =
      (s.genContinues 1 2 >>= fun r => emitlabel 2 >>= fun _ => pure r)
        atBlock := rfl
  rw [hcontinues, bind_run hr, bind_run hlab.run]
  rfl

theorem program_notes {toks : List Token} {o : Output}
    (h : program toks = .ok o) (I : Interp V) : ∃ r st,
      LabelDiscipline o.gen ∧ o.continues = r.inner ∧
        Notes I o.gen.out o.stmt 0 atBlock st r := by
  obtain ⟨hw, hin, hgen⟩ := program_built h
  obtain ⟨-, -, k, hk⟩ := program_code h
  have hl := hk.labelDiscipline hin
  obtain ⟨r, st, hrun, hs, hpre⟩ := genProgramContinues_run hgen
  have henc : Encloses none 0 (0, 0) atBlock := fun l hl => nomatch hl
  refine ⟨r, st, hl, by rw [Output.continues, hrun], ?_⟩
  exact Stmt.genContinues_notes hl.disciplined hw hin henc ⟨[], rfl⟩
    Nat.one_ne_zero (Nat.succ_ne_zero 1) hs hpre

/-- None of them is left out. -/
theorem length_continues {toks : List Token} {o : Output}
    (h : program toks = .ok o) :
    o.continues.length = o.stmt.countContinues := by
  obtain ⟨r, st, hl, hcontinues, hnotes⟩ := program_notes h intInterp
  have hown : r.own = [] := by
    refine List.eq_nil_iff_forall_not_mem.mpr fun q hq => ?_
    -- Outside loops it would be a jump to the label 0.
    have hmem := List.mem_of_getElem? (hnotes.own q hq).2.2
    exact (hl.targets _ _ hmem rfl).1 rfl
  rw [hcontinues, ← hnotes.count, hown, List.length_nil, Nat.zero_add]

/-- Every `continue` goes to the condition of its loop, which then decides
whether the body is entered, if and only if none has a `do` as its innermost
loop. -/
theorem continue_retests_iff {toks : List Token} {o : Output}
    (h : program toks = .ok o) (I : Interp V) :
    (∀ p ∈ o.continues, Retests I o.gen.out p.jump p.test ∧
        p.Guarded I o.gen.out) ↔
      o.stmt.noDoContinue false = true := by
  obtain ⟨r, st, -, hcontinues, hnotes⟩ := program_notes h I
  rw [hcontinues, ← hnotes.retests false]
  constructor
  · intro hall
    exact ⟨Bool.noConfusion, fun p hp => (hall p hp).1⟩
  · intro ⟨_, hall⟩ p hp
    exact ⟨hall p hp, hnotes.guarded p hp⟩

/-- A `continue` in an `if`, in a `while` that stands in a `do`. -/
theorem continue_retests_iff_nested : ∃ o : Output,
    main ("\x7b int i; bool b; do \x7b while (i < 9) \x7b i = i + 1; " ++
      "if (b) continue; break; \x7d \x7d while (b); \x7d") = .ok o ∧
      ((∀ p ∈ o.continues, Retests intInterp o.gen.out p.jump p.test ∧
          p.Guarded intInterp o.gen.out) ↔
        o.stmt.noDoContinue false = true) := by
  obtain ⟨o, ho, -⟩ := exists_of_okAnd (p := fun o => o.stmt.noDoContinue false)
    (x := main ("\x7b int i; bool b; do \x7b while (i < 9) \x7b i = i + 1; " ++
      "if (b) continue; break; \x7d \x7d while (b); \x7d"))
    (by decide +kernel)
  exact ⟨o, ho, continue_retests_iff ho intInterp⟩

/-- In a `do` the jump goes to the body: the condition, false from the start,
is never tested. -/
theorem doContinue_skips_test : ∃ o : Output,
    main "\x7b int i; do \x7b i = i + 1; continue; \x7d while (i < 0); \x7d" =
      .ok o ∧ ∃ p ∈ o.continues,
        ¬ Retests intInterp o.gen.out p.jump p.test := by
  obtain ⟨o, ho, hcheck⟩ := exists_of_okAnd
    (p := fun o => o.continues.any fun p =>
      o.gen.out[p.jump]? = some (.instr (.goto 1)) ∧
        pos o.gen.out 1 ≤ p.jump ∧ p.jump < p.test)
    (x := main "\x7b int i; do \x7b i = i + 1; continue; \x7d while (i < 0); \x7d")
    (by decide +kernel)
  obtain ⟨p, hp, hcheck⟩ := List.any_eq_true.mp hcheck
  obtain ⟨hget, hpos, hlt⟩ := of_decide_eq_true hcheck
  obtain ⟨-, -, hl, -⟩ := program_notes ho intInterp
  exact ⟨o, ho, p, hp, not_retests_do hl.disciplined hget hpos hlt⟩

end LearningLinux.FrontEnd
