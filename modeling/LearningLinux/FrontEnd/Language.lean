import LearningLinux.FrontEnd.ParserComplete
import LearningLinux.FrontEnd.Static
import LearningLinux.FrontEnd.Text

/-!
# The language of the parser

What the README documents is a grammar, and rules for the trees of it
(`STree.Checks`). The grammar is ambiguous where an `else` could belong to
more than one `if`; the parser takes the nearest. So the first thing here is
that a program which follows the rules under some reading follows them under
that one too: an `else` may only move into statements where the same names are
in scope and at least as much is in a loop.

With that, soundness and completeness of the methods come together: the
parser accepts a text exactly if it starts with a block of the grammar that
follows the rules, `=` between declarators being as good as a comma to it.
That it is not in the language is the one thing the parser misses.
-/

namespace LearningLinux.FrontEnd

open Lib

/-! ## The nearest `if` -/

/-- `t` with `else s` for the last `if` that can take it. -/
def STree.attachElse {k : SKind} : STree k → STree .stmt → STree k
  | .ifThen c s1, s =>
      if s1.open then .ifThen c (s1.attachElse s) else .ifElse c s1 s
  | .ifElse c s1 s2, s => .ifElse c s1 (s2.attachElse s)
  | .whileDo c s1, s => .whileDo c (s1.attachElse s)
  | t, _ => t

/-- The tree of the same tokens that gives every `else` to the nearest `if`. -/
def STree.regroup {k : SKind} : STree k → STree k
  | .ifThen c s => .ifThen c s.regroup
  | .ifElse c s1 s2 =>
      if s1.regroup.open then
        .ifThen c (s1.regroup.attachElse s2.regroup)
      else .ifElse c s1.regroup s2.regroup
  | .whileDo c s => .whileDo c s.regroup
  | .doWhile s c => .doWhile s.regroup c
  | .block b => .block b.regroup
  | .cons ds s rest => .cons ds s.regroup rest.regroup
  | t => t

theorem STree.attachElse_ifThen (c : BoolTree) (s1 s : STree .stmt) :
    (STree.ifThen c s1).attachElse s =
      if s1.open then .ifThen c (s1.attachElse s) else .ifElse c s1 s := rfl

theorem STree.regroup_ifElse (c : BoolTree) (s1 s2 : STree .stmt) :
    (STree.ifElse c s1 s2).regroup =
      if s1.regroup.open then
        .ifThen c (s1.regroup.attachElse s2.regroup)
      else .ifElse c s1.regroup s2.regroup := rfl

theorem STree.attachElse_yield {k : SKind} (t : STree k) (s : STree .stmt) :
    t.open = true → (t.attachElse s).yield = t.yield ++ .else :: s.yield := by
  induction t with
  | ifThen c s1 ih =>
      intro _
      rw [attachElse_ifThen]
      split
      · rename_i hopen
        rw [yield, ih hopen, yield]
        simp
      · rw [yield, yield]
  | ifElse c s1 s2 _ ih =>
      intro hopen
      show (STree.ifElse c s1 (s2.attachElse s)).yield = _
      rw [yield, ih hopen, yield]
      simp
  | whileDo c s1 ih =>
      intro hopen
      show (STree.whileDo c (s1.attachElse s)).yield = _
      rw [yield, ih hopen, yield]
      simp
  | _ => intro hopen; cases hopen

theorem STree.attachElse_nearest {k : SKind} (t : STree k) {s : STree .stmt}
    (hs : s.Nearest) : t.Nearest → (t.attachElse s).Nearest := by
  induction t with
  | ifThen c s1 ih =>
      intro h1
      rw [attachElse_ifThen]
      split
      · exact ih h1
      · rename_i hopen
        exact ⟨Bool.eq_false_iff.mpr hopen, h1, hs⟩
  | ifElse c s1 s2 _ ih =>
      intro ⟨hclosed, h1, h2⟩
      exact ⟨hclosed, h1, ih h2⟩
  | whileDo c s1 ih => exact ih
  | _ => exact id

/-- What may stand outside of loops may stand inside. -/
theorem STree.Checks.inLoop {k : SKind} {t : STree k} : ∀ {Γ : Ctx}
    {inLoop : Bool}, t.Checks Γ inLoop → t.Checks Γ true := by
  induction t with
  | ifThen c s ih =>
      intro Γ inLoop ⟨hc, hs⟩
      exact ⟨hc, ih hs⟩
  | ifElse c s1 s2 ih1 ih2 =>
      intro Γ inLoop ⟨hc, h1, h2⟩
      exact ⟨hc, ih1 h1, ih2 h2⟩
  | «break» => intro Γ inLoop _; rfl
  | «continue» => intro Γ inLoop _; rfl
  | block b ih => intro Γ inLoop h; exact ih h
  | cons ds s rest ihs ihr =>
      intro Γ inLoop ⟨Γ', hds, hs, hr⟩
      exact ⟨Γ', hds, ihs hs, ihr hr⟩
  | _ => intro Γ inLoop h; exact h

theorem STree.attachElse_checks {k : SKind} (t : STree k) {s : STree .stmt}
    {Γ : Ctx} : ∀ {inLoop : Bool}, s.Checks Γ inLoop → t.Checks Γ inLoop →
      (t.attachElse s).Checks Γ inLoop := by
  induction t generalizing Γ with
  | ifThen c s1 ih =>
      intro inLoop hs ⟨hc, h1⟩
      rw [attachElse_ifThen]
      split
      · exact ⟨hc, ih hs h1⟩
      · exact ⟨hc, h1, hs⟩
  | ifElse c s1 s2 _ ih =>
      intro inLoop hs ⟨hc, h1, h2⟩
      exact ⟨hc, h1, ih hs h2⟩
  | whileDo c s1 ih =>
      intro inLoop hs ⟨hc, h1⟩
      exact ⟨hc, ih hs.inLoop h1⟩
  | _ => intro inLoop _ h; exact h

theorem STree.regroup_yield {k : SKind} (t : STree k) :
    t.regroup.yield = t.yield := by
  induction t with
  | ifThen c s ih =>
      show (STree.ifThen c s.regroup).yield = _
      rw [yield, ih, yield]
  | ifElse c s1 s2 ih1 ih2 =>
      rw [regroup_ifElse]
      split
      · rename_i hopen
        rw [yield, attachElse_yield _ _ hopen, ih1, ih2, yield]
        simp
      · rw [yield, ih1, ih2, yield]
  | whileDo c s ih =>
      show (STree.whileDo c s.regroup).yield = _
      rw [yield, ih, yield]
  | doWhile s c ih =>
      show (STree.doWhile s.regroup c).yield = _
      rw [yield, ih, yield]
  | block b ih =>
      show (STree.block b.regroup).yield = _
      rw [yield, ih, yield]
  | cons ds s rest ihs ihr =>
      show (STree.cons ds s.regroup rest.regroup).yield = _
      rw [yield, ihs, ihr, yield]
  | _ => rfl

theorem STree.regroup_nearest {k : SKind} (t : STree k) :
    t.regroup.Nearest := by
  induction t with
  | ifThen c s ih => exact ih
  | ifElse c s1 s2 ih1 ih2 =>
      rw [regroup_ifElse]
      split
      · exact attachElse_nearest _ ih2 ih1
      · rename_i hopen
        exact ⟨Bool.eq_false_iff.mpr hopen, ih1, ih2⟩
  | whileDo c s ih => exact ih
  | doWhile s c ih => exact ih
  | block b ih => exact ih
  | cons ds s rest ihs ihr => exact ⟨ihs, ihr⟩
  | _ => trivial

theorem STree.regroup_checks {k : SKind} (t : STree k) : ∀ {Γ : Ctx}
    {inLoop : Bool}, t.Checks Γ inLoop → t.regroup.Checks Γ inLoop := by
  induction t with
  | ifThen c s ih =>
      intro Γ inLoop ⟨hc, hs⟩
      exact ⟨hc, ih hs⟩
  | ifElse c s1 s2 ih1 ih2 =>
      intro Γ inLoop ⟨hc, h1, h2⟩
      rw [regroup_ifElse]
      split
      · exact ⟨hc, attachElse_checks _ (ih2 h2) (ih1 h1)⟩
      · exact ⟨hc, ih1 h1, ih2 h2⟩
  | whileDo c s ih =>
      intro Γ inLoop ⟨hc, hs⟩
      exact ⟨hc, ih hs⟩
  | doWhile s c ih =>
      intro Γ inLoop ⟨hs, hc⟩
      exact ⟨ih hs, hc⟩
  | block b ih => intro Γ inLoop h; exact ih h
  | cons ds s rest ihs ihr =>
      intro Γ inLoop ⟨Γ', hds, hs, hr⟩
      exact ⟨Γ', hds, ihs hs, ihr hr⟩
  | _ => intro Γ inLoop h; exact h

/-! ## Separators

Whether an `=` stands between declarators can be seen from the tokens alone.
-/

/-- No `=` among the declarators of a declaration. -/
def noAssign : Bool → List Token → Bool
  | _, [] => true
  | _, .basic _ :: ts => noAssign true ts
  | declaring, .chr c :: ts =>
      if c = ';' then noAssign false ts
      else if c = '=' && declaring then false
      else noAssign declaring ts
  | declaring, _ :: ts => noAssign declaring ts

/-- The tokens `ts` can be scanned on their own, with answer `b`. -/
def Scanned (ts : List Token) (b : Bool) : Prop :=
  ∀ rest, noAssign false (ts ++ rest) = (b && noAssign false rest)

theorem Scanned.append {ts us : List Token} {b c : Bool} (ht : Scanned ts b)
    (hu : Scanned us c) : Scanned (ts ++ us) (b && c) := by
  intro rest
  rw [List.append_assoc, ht, hu, Bool.and_assoc]

theorem Scanned.plain {ts us : List Token} {b : Bool} (ht : Scanned ts b)
    (hu : Scanned us true) : Scanned (ts ++ us) b := by
  have h := ht.append hu
  rw [Bool.and_true] at h
  exact h

/-- Outside of declarations only a type matters. -/
theorem Scanned.cons {t : Token} {ts : List Token} {b : Bool}
    (ht : t.asBasic = none) (hts : Scanned ts b) : Scanned (t :: ts) b := by
  intro rest
  rw [← hts rest, List.cons_append]
  cases t with
  | basic c => cases ht
  | chr c =>
      rw [noAssign]
      simp
  | _ => rfl

theorem scanned_nil : Scanned [] true := fun _ => rfl

theorem BinLevel.op_asBasic {l : BinLevel} {tok : Token} {op : BinOp}
    (h : l.op tok = some op) : tok.asBasic = none := by
  unfold BinLevel.op at h
  split at h <;> first | rfl | cases h

theorem relOp_asBasic {tok : Token} {op : RelOp} (h : relOp tok = some op) :
    tok.asBasic = none := by
  unfold relOp at h
  split at h <;> first | rfl | cases h

theorem ETree.scanned {k : Level} (t : ETree k) : Scanned t.yield .true := by
  induction t with
  | binary x tok op h y ihx ihy =>
      exact ihx.append (ihy.cons (BinLevel.op_asBasic h))
  | operand l x ih => exact ih
  | relation x tok op h y ihx ihy =>
      exact ihx.append (ihy.cons (relOp_asBasic h))
  | plain x ih => exact ih
  | minus x ih => exact ih.cons (by rfl)
  | bang x ih => exact ih.cons (by rfl)
  | single x ih => exact ih
  | paren x ih => exact (ih.cons (by rfl)).append (scanned_nil.cons (by rfl))
  | elem x ih => exact ih
  | first w i ih =>
      exact ((ih.cons (by rfl)).cons (by rfl)).append (scanned_nil.cons (by rfl))
  | more x i ihx ihi =>
      exact (ihx.append (ihi.cons (by rfl))).append (scanned_nil.cons (by rfl))
  | _ => exact scanned_nil.cons (by rfl)

theorem noAssign_dims (dims : List Num) (rest : List Token) :
    noAssign true (dims.flatMap dimTokens ++ rest) = noAssign true rest := by
  induction dims with
  | nil => rfl
  | cons n dims ih =>
      rw [List.flatMap_cons, List.append_assoc]
      exact ih

theorem noAssign_more (more : List (Sep × Word)) (rest : List Token) :
    noAssign true (more.flatMap (fun p => [p.1.token, .id p.2]) ++ rest) =
      (more.all (fun p => p.1 = .comma) && noAssign true rest) := by
  induction more with
  | nil => rfl
  | cons p more ih =>
      obtain ⟨sep, w⟩ := p
      rw [List.flatMap_cons, List.append_assoc, List.all_cons, Bool.and_assoc,
        ← ih]
      cases sep <;> rfl

theorem Decl.scanned (d : Decl) : Scanned d.yield d.documented := by
  intro rest
  rw [Decl.yield, Decl.documented, List.cons_append, List.cons_append,
    List.cons_append, noAssign, List.append_assoc, List.append_assoc,
    noAssign_dims]
  exact noAssign_more d.more (.chr ';' :: rest)

theorem decls_scanned (ds : List Decl) :
    Scanned (ds.flatMap Decl.yield) (ds.all Decl.documented) := by
  induction ds with
  | nil => exact scanned_nil
  | cons d ds ih =>
      rw [List.flatMap_cons, List.all_cons]
      exact d.scanned.append ih

theorem STree.scanned {k : SKind} (t : STree k) :
    Scanned t.yield t.documented := by
  induction t with
  | empty => exact scanned_nil.cons (by rfl)
  | ifThen c s ih =>
      exact ((c.scanned.cons (by rfl)).cons (by rfl)).append (ih.cons (by rfl))
  | ifElse c s1 s2 ih1 ih2 =>
      exact (((c.scanned.cons (by rfl)).cons (by rfl)).append
        (ih1.cons (by rfl))).append (ih2.cons (by rfl))
  | whileDo c s ih =>
      exact ((c.scanned.cons (by rfl)).cons (by rfl)).append (ih.cons (by rfl))
  | doWhile s c ih =>
      exact ((ih.cons (by rfl)).plain
        ((c.scanned.cons (by rfl)).cons (by rfl))).plain
        ((scanned_nil.cons (by rfl)).cons (by rfl))
  | «break» => exact (scanned_nil.cons (by rfl)).cons (by rfl)
  | «continue» => exact (scanned_nil.cons (by rfl)).cons (by rfl)
  | block b ih =>
      exact (ih.cons (by rfl)).plain (scanned_nil.cons (by rfl))
  | assign w x =>
      exact ((x.scanned.cons (by rfl)).cons (by rfl)).append
        (scanned_nil.cons (by rfl))
  | assignElem loc x =>
      exact (loc.scanned.append (x.scanned.cons (by rfl))).append
        (scanned_nil.cons (by rfl))
  | done ds => exact decls_scanned ds
  | cons ds s rest ihs ihr => exact ((decls_scanned ds).append ihs).append ihr

/-! ## The language -/

/-- The text starts with a block of the documented grammar that follows the
rules. -/
def InLanguage (toks : List Token) : Prop :=
  ∃ b : STree .stmts, (STree.block b).yield <+: toks ∧
    (STree.block b).documented = true ∧ (STree.block b).Checks [] false

/-- The same, with `=` as good as a comma between declarators. -/
def InLenientLanguage (toks : List Token) : Prop :=
  ∃ b : STree .stmts, (STree.block b).yield <+: toks ∧
    (STree.block b).Checks [] false

/-- A block at the start of a text ends at the partner of its brace. -/
theorem outerBlock_of_isPrefix {b : STree .stmts} {toks : List Token}
    (h : (STree.block b).yield <+: toks) :
    outerBlock 0 toks = (STree.block b).yield := by
  obtain ⟨rest, rfl⟩ := h
  rw [STree.yield_block]
  exact outerBlock_program

theorem documented_of_isPrefix {b : STree .stmts} {toks : List Token}
    (h : (STree.block b).yield <+: toks) :
    noAssign false (outerBlock 0 toks) = (STree.block b).documented := by
  have hscan := (STree.block b).scanned []
  rw [outerBlock_of_isPrefix h]
  rw [List.append_nil, noAssign, Bool.and_true] at hscan
  exact hscan

theorem inLanguage_iff {toks : List Token} : InLanguage toks ↔
    InLenientLanguage toks ∧ noAssign false (outerBlock 0 toks) = true := by
  constructor
  · intro ⟨b, hpre, hdoc, hchecks⟩
    exact ⟨⟨b, hpre, hchecks⟩, (documented_of_isPrefix hpre).trans hdoc⟩
  · intro ⟨⟨b, hpre, hchecks⟩, hno⟩
    exact ⟨b, hpre, (documented_of_isPrefix hpre).symm.trans hno, hchecks⟩

/-- What the parser accepts. -/
theorem program_ok_iff {toks : List Token} :
    (∃ o, program toks = .ok o) ↔ InLenientLanguage toks := by
  constructor
  · intro ⟨o, ho⟩
    obtain ⟨b, rest, sem, rfl, hp, -, -⟩ := program_sound ho
    refine ⟨b, ⟨rest, ?_⟩, (STree.block b).checks_of_perform hp⟩
    rw [STree.yield_block]
    rfl
  · intro ⟨b, ⟨rest, hrest⟩, hchecks⟩
    have hnear := b.regroup_nearest
    obtain ⟨x, sem, hp⟩ := (STree.block b.regroup).perform_of_checks
      (e := Sem.init) ((STree.block b).regroup_checks hchecks)
    obtain ⟨o, ho⟩ := program_complete rest hnear hp
    have hyield : (STree.block b.regroup).yield = (STree.block b).yield :=
      (STree.block b).regroup_yield
    rw [hyield, hrest] at ho
    exact ⟨o, ho⟩

/-- The parser recognises the documented language on the texts whose
declarators have commas between them, and on those that would be no programs
with commas there either. -/
theorem program_recognises_iff (toks : List Token) :
    ((∃ o, program toks = .ok o) ↔ InLanguage toks) ↔
      noAssign false (outerBlock 0 toks) = true ∨ ¬ InLenientLanguage toks := by
  rw [program_ok_iff, inLanguage_iff]
  constructor
  · intro h
    by_cases hlen : InLenientLanguage toks
    · exact Or.inl (h.mp hlen).2
    · exact Or.inr hlen
  · intro h
    constructor
    · intro hlen
      exact ⟨hlen, h.resolve_right (not_not_intro hlen)⟩
    · exact And.left

def assignText : List UInt8 := ("\x7b int a = b; \x7d").toUTF8.toList

theorem program_recognises_not :
    ¬ ((∃ o, program (tokenize assignText) = .ok o) ↔
      InLanguage (tokenize assignText)) := by
  intro h
  obtain ⟨o, ho, -⟩ := exists_of_okAnd (p := fun _ => true)
    (x := program (tokenize assignText)) (by decide +kernel)
  have hin := (inLanguage_iff.mp (h.mp ⟨o, ho⟩)).2
  exact absurd hin (by decide +kernel)

end LearningLinux.FrontEnd
