import LearningLinux.FrontEnd.Termination
import LearningLinux.FrontEnd.Text

/-!
# Static scoping

`top` is a stack of tables, one for each block that is open, and the tables
hold what these blocks have declared so far (`Scoped`). A block saves `top`
and puts it back, so this is so after every action, and a name that is looked
up is found where the scope rule says. The tables have `Word` objects as
their keys; that this is looking up by spelling is the lexer's interning.
-/

namespace LearningLinux.FrontEnd

open Lib
open Lib.Scopes

/-! ## The tables of `top` -/

/-- A table as a function of the objects that are its keys. -/
def Table.find (t : Table) (ref : Nat) : Option Id := List.lookup ref t

def Env.tables (env : Env) : List (Nat → Option Id) :=
  List.map Table.find env

theorem Env.get_eq (env : Env) (w : Word) :
    env.get w = lookup env.tables w.ref := by
  induction env with
  | nil => rfl
  | cons t prev ih =>
      rw [Env.get, ih]
      rfl

theorem Table.find_put_self (t : Table) (w : Word) (i : Id) :
    (t.put w i).find w.ref = some i := List.lookup_cons_self

theorem Table.find_put_of_ne (t : Table) (w : Word) (i : Id) {r : Nat}
    (h : r ≠ w.ref) : (t.put w i).find r = t.find r := by
  have hne : (r == w.ref) = false := beq_eq_false_iff_ne.mpr h
  have hcons : (t.put w i).find r =
      match r == w.ref with
      | true => some i
      | false => t.find r := List.lookup_cons
  rw [hcons, hne]

/-! ## The invariant -/

/-- The tables, and the next `key`, after the text `t`. -/
structure Records (t : List (Occ Nat Id)) (env : List (Nat → Option Id))
    (now : Nat) : Prop where
  wellScoped : WellScoped t
  tables : Tables t env
  distinct : Distinct t
  fresh : ∀ (j x : Nat) (a : Id), t[j]? = some (Occ.decl x a) → a.key < now

def Scoped (e : Sem) : Prop :=
  Records (text Word.ref e.log) e.top.tables e.now

theorem scoped_init : Scoped Sem.init where
  wellScoped := .nil
  tables := .nil
  distinct _ _ _ _ _ h := by cases h
  fresh _ _ _ h := by cases h

/-- A step that is not a declaration. -/
theorem Records.snoc {t : List (Occ Nat Id)} {env env' : List (Nat → Option Id)}
    {now : Nat} (h : Records t env now) {o : Occ Nat Id}
    (ho : ∀ x a, o = .use x a →
      ∃ j, ResolvesTo t t.length x j ∧ t[j]? = some (.decl x a))
    (htables : Tables (t ++ [o]) env') (hd : ∀ x a, o ≠ .decl x a) :
    Records (t ++ [o]) env' now where
  wellScoped := h.wellScoped.snoc hd ho
  tables := htables
  distinct := h.distinct.snoc fun x a hx => absurd hx (hd x a)
  fresh j x a hj := by
    rcases getElem?_snoc.mp hj with hj | ⟨-, hx⟩
    · exact h.fresh j x a hj
    · exact absurd hx (hd x a)

theorem Scoped.resolve {w : Word} {e e' : Sem} {id : Id} (h : Scoped e)
    (hr : resolve w e = .ok (id, e')) : Scoped e' := by
  obtain ⟨hget, rfl⟩ := resolve_ok.mp hr
  have htext : text Word.ref (.use w id :: e.log) =
      text Word.ref e.log ++ [Occ.use w.ref id] := text_cons _ _ _
  rw [Env.get_eq] at hget
  show Records (text Word.ref (.use w id :: e.log)) e.top.tables e.now
  rw [htext]
  refine Records.snoc h (fun x a ho => ?_) (Tables.use h.tables w.ref id) nofun
  cases ho
  exact Tables.resolves h.wellScoped h.tables hget

theorem Scoped.declare {w : Word} {p : Ty} {e e' : Sem} {u : Unit}
    (h : Scoped e) (hd : declare w p e = .ok (u, e')) : Scoped e' := by
  obtain ⟨table, prev, htop, hnone, rfl⟩ := declare_ok.mp hd
  have htext : text Word.ref (e.declared w p table prev).log =
      text Word.ref e.log ++ [Occ.decl w.ref ⟨w, p, e.used, e.now⟩] :=
    text_cons _ _ _
  have htables : Tables (text Word.ref e.log)
      (table.find :: Env.tables prev) := by
    have htables := h.tables
    rw [htop] at htables
    exact htables
  obtain ⟨htables', B, hB, hnew⟩ := htables.decl hnone
    (table.find_put_self w ⟨w, p, e.used, e.now⟩)
    (fun r hr => table.find_put_of_ne w _ hr)
  rw [Scoped, htext]
  refine ⟨h.wellScoped.decl hB hnew, htables', ?_, fun j x a hj => ?_⟩
  · refine h.distinct.snoc fun x a ho j y hj => ?_
    cases ho
    exact Nat.lt_irrefl _ (h.fresh j y _ hj)
  · rcases getElem?_snoc.mp hj with hj | ⟨-, ho⟩
    · exact Nat.lt_succ_of_lt (h.fresh j x a hj)
    · cases ho
      exact Nat.lt_succ_self _

theorem Scoped.opened {e : Sem} (h : Scoped e) : Scoped e.opened := by
  have htext : text Word.ref e.opened.log =
      text Word.ref e.log ++ [Occ.opened] := text_cons _ _ _
  rw [Scoped, htext]
  exact Records.snoc h nofun (Tables.opened h.tables) nofun

/-- The end of a block that has left the tables around it alone. -/
theorem Scoped.closed {e e' : Sem} {t : Table} (h : Scoped e')
    (htop : e'.top = t :: e.top) : Scoped (e.closed e') := by
  have htext : text Word.ref (e.closed e').log =
      text Word.ref e'.log ++ [Occ.closed] := text_cons _ _ _
  have htables : Tables (text Word.ref e'.log)
      (t.find :: e.top.tables) := by
    have htables := h.tables
    rw [htop] at htables
    exact htables
  rw [Scoped, htext]
  exact Records.snoc h nofun htables.closed nofun

/-- The actions inside a block touch its own table only. -/
theorem scoped_rel : ActRel fun e e' => (Scoped e → Scoped e') ∧
    ∀ t prev, e.top = t :: prev → ∃ t' : Table, e'.top = t' :: prev where
  refl _ := ⟨id, fun t _ h => ⟨t, h⟩⟩
  trans h h' := by
    refine ⟨h'.1 ∘ h.1, fun t prev ht => ?_⟩
    obtain ⟨t', ht'⟩ := h.2 t prev ht
    exact h'.2 t' prev ht'
  resolve h := by
    refine ⟨fun hs => hs.resolve h, fun t prev ht => ⟨t, ?_⟩⟩
    rw [(resolve_ok.mp h).2]
    exact ht
  declare h := by
    refine ⟨fun hs => hs.declare h, fun t prev ht => ?_⟩
    obtain ⟨table, prev', htop, -, rfl⟩ := declare_ok.mp h
    rw [htop] at ht
    cases ht
    exact ⟨_, rfl⟩
  assignSep e := by
    refine ⟨fun hs => ?_, fun t prev ht => ⟨t, ht⟩⟩
    have htext : text Word.ref (.assignSep :: e.log) = text Word.ref e.log :=
      (text_cons _ _ _).trans (List.append_nil _)
    rw [Scoped, htext]
    exact hs
  block {e e'} h := by
    refine ⟨fun hs => ?_, fun t prev ht => ⟨t, ht⟩⟩
    obtain ⟨t, ht⟩ := h.2 [] e.top rfl
    exact (h.1 hs.opened).closed ht
  loop h := h

theorem program_scoped {toks : List Token} {o : Output}
    (h : program toks = .ok o) : WellScoped (text Word.ref o.log) ∧
      Distinct (text Word.ref o.log) := by
  obtain ⟨e, hlog, hrel, -⟩ := program_rel scoped_rel h
  rw [hlog]
  exact ⟨(hrel scoped_init).wellScoped, (hrel scoped_init).distinct⟩

/-! ## Names and their spelling -/

theorem mem_of_mem_outerBlock {t : Token} {ts : List Token} {depth : Nat}
    (h : t ∈ outerBlock depth ts) : t ∈ ts := by
  induction ts generalizing depth with
  | nil => cases h
  | cons u ts ih =>
      rw [outerBlock] at h
      split at h
      · rcases List.mem_cons.mp h with rfl | h
        · exact List.mem_cons_self
        · exact List.mem_cons_of_mem _ (ih h)
      · split at h
        · split at h
          · exact List.mem_singleton.mp h ▸ List.mem_cons_self
          · rcases List.mem_cons.mp h with rfl | h
            · exact List.mem_cons_self
            · exact List.mem_cons_of_mem _ (ih h)
        · rcases List.mem_cons.mp h with rfl | h
          · exact List.mem_cons_self
          · exact List.mem_cons_of_mem _ (ih h)

/-- The names of a text are the identifiers among its tokens. -/
theorem occurrences_names {ν : Type} (f : Word → ν) (ts : List Token) :
    ∀ declaring, (occurrences f declaring ts).filterMap Occ.name =
      (ts.filterMap Token.asId).map f := by
  induction ts with
  | nil => intro _; rfl
  | cons t ts ih =>
      intro declaring
      cases t with
      | id w =>
          rw [occurrences]
          cases declaring with
          | false => exact congrArg _ (ih false)
          | true => exact congrArg _ (ih true)
      | chr c =>
          rw [occurrences]
          split
          · exact ih declaring
          · split
            · exact ih declaring
            · split
              · exact ih false
              · exact ih declaring
      | basic b => exact ih true
      | _ => exact ih declaring

theorem filterMap_name_map_forget {ν ι : Type} (t : List (Occ ν ι)) :
    (t.map forget).filterMap Occ.name = t.filterMap Occ.name := by
  rw [List.filterMap_map]
  congr 1
  funext o
  cases o <;> rfl

theorem occurs_mem {toks : List Token} {o : Output}
    (h : program toks = .ok o) {w : Word} (hw : Occurs (text id o.log) w) :
    .id w ∈ toks := by
  rw [Occurs, ← filterMap_name_map_forget, (program_text h id).1,
    occurrences_names, List.map_id] at hw
  obtain ⟨t, ht, hid⟩ := List.mem_filterMap.mp hw
  rw [asId_eq.mp hid] at ht
  exact mem_of_mem_outerBlock ht

theorem text_id {ν : Type} (f : Word → ν) (log : List Event) :
    text f log = (text id log).map (Occ.map f id) := text_map id f log

/-- In a text that comes from the lexer, an accepted program is well scoped
under the names as they are spelled. -/
theorem program_wellScoped {input : List UInt8} {o : Output}
    (h : program (tokenize input) = .ok o) :
    WellScoped (text Word.lexeme o.log) ∧
      Distinct (text Word.lexeme o.log) := by
  obtain ⟨hscoped, hdistinct⟩ := program_scoped h
  rw [text_id] at hscoped hdistinct
  rw [text_id]
  have hinterned : ∀ w, Occurs (text id o.log) w →
      KeepsApart Word.ref (text id o.log) w ∧
        KeepsApart Word.lexeme (text id o.log) w := by
    intro w hw
    have hmem := occurs_mem h hw
    constructor
    · intro j w' a hj heq
      have hmem' := occurs_mem h (occurs_of_decl hj)
      exact (tokenize_interned hmem' hmem).1.mp heq
    · intro j w' a hj heq
      have hmem' := occurs_mem h (occurs_of_decl hj)
      exact (tokenize_interned hmem' hmem).2.mp heq
  have hwords : WellScoped (text id o.log) :=
    hscoped.of_map (fun w hw => (hinterned w hw).1) Function.injective_id
  exact ⟨hwords.map fun w hw => (hinterned w hw).2,
    (distinct_map Function.injective_id).mpr
      ((distinct_map Function.injective_id).mp hdistinct)⟩

/-! ## The scope rule -/

/-- The output `o` of the program `toks` follows the scope rule. -/
structure StaticScoping (toks : List Token) (o : Output) : Prop where
  /-- The log has the names of the text, one for one. -/
  names : (text Word.lexeme o.log).map forget = names toks
  /-- The tree has the `Id`s the uses were taken to mean. -/
  tree : (text Word.lexeme o.log).filterMap Occ.used = o.stmt.ids
  /-- A use means the `Id` that its declaration created. -/
  resolved : ∀ (i : Nat) (x : List Char) (a : Id),
    (text Word.lexeme o.log)[i]? = some (Occ.use x a) →
    ∃ j, ResolvesTo (FrontEnd.names toks) i x j ∧
      (text Word.lexeme o.log)[j]? = some (Occ.decl x a)
  /-- And never one created in a block that is not around it. -/
  inside : ∀ (i j : Nat) (x y : List Char) (a : Id),
    (text Word.lexeme o.log)[i]? = some (Occ.use x a) →
    (text Word.lexeme o.log)[j]? = some (Occ.decl y a) →
    j < i ∧ ∃ B ∈ enclosing (FrontEnd.names toks) i,
      (enclosing (FrontEnd.names toks) j).head? = some B

theorem wellScoped_forget {ν ι : Type} {t : List (Occ ν ι)}
    (h : WellScoped t) : WellScoped (t.map forget) :=
  h.map fun _ _ _ _ _ _ heq => heq

theorem staticScoping {input : List UInt8} {o : Output}
    (h : program (tokenize input) = .ok o) :
    StaticScoping (tokenize input) o := by
  obtain ⟨hscoped, hdistinct⟩ := program_wellScoped h
  obtain ⟨hnames, htree⟩ := program_text h Word.lexeme
  have hresolves : ∀ {i j x}, ResolvesTo (names (tokenize input)) i x j ↔
      ResolvesTo (text Word.lexeme o.log) i x j := by
    intro i j x
    rw [names, ← hnames]
    exact resolvesTo_map (f := id) fun _ _ _ _ heq => heq
  refine ⟨hnames, htree, fun i x a hi => ?_, fun i j x y a hi hj => ?_⟩
  · obtain ⟨j, hj, hdecl⟩ := hscoped.resolved i x a hi
    exact ⟨j, hresolves.mpr hj, hdecl⟩
  · obtain ⟨j', hj', hdecl⟩ := hscoped.resolved i x a hi
    obtain rfl := hdistinct j j' y x a hj hdecl
    exact (hresolves.mpr hj').enclosed

/-- A use without a declaration, or a second declaration of a name in one
block. -/
def Misnamed (text : List (Occ (List Char) Unit)) : Prop :=
  (∃ i x, text[i]? = some (.use x ()) ∧ ∀ j, ¬ ResolvesTo text i x j) ∨
    ∃ B x j j', j < j' ∧ DeclaredIn text text.length B x j ∧
      DeclaredIn text text.length B x j'

theorem not_misnamed {t : List (Occ (List Char) Unit)}
    (h : WellScoped t) : ¬ Misnamed t := by
  rintro (⟨i, x, hi, hnone⟩ | ⟨B, x, j, j', hlt, hj, hj'⟩)
  · obtain ⟨j, hj, -⟩ := h.resolved i x () hi
    exact hnone j hj
  · exact Nat.ne_of_lt hlt (h.once B x j j' hj hj')

/-- Names are scoped statically: in an accepted program every use means what
the rule says, and a program in which one means nothing, or is declared twice
in a block, is not accepted. -/
theorem program_scoping (input : List UInt8) :
    (∀ o, program (tokenize input) = .ok o →
      StaticScoping (tokenize input) o) ∧
    (Misnamed (names (tokenize input)) →
      ∃ message, program (tokenize input) = .error (.error message)) := by
  refine ⟨fun o h => staticScoping h, fun hbad => ?_⟩
  obtain ⟨o, ho⟩ | herror := program_total (tokenize input)
  · have hscoped := wellScoped_forget (program_wellScoped ho).1
    rw [(program_text ho Word.lexeme).1] at hscoped
    exact absurd hbad (not_misnamed hscoped)
  · exact herror

/-- In the inner block `x` is first the outer variable and then, once
declared, another. -/
def shadowText : List UInt8 :=
  ("\x7b int x; \x7b x = 1; float x; x = 2.0; \x7d x = 3; \x7d").toUTF8.toList

theorem program_scoping_shadow : ∃ o,
    program (tokenize shadowText) = .ok o ∧
      StaticScoping (tokenize shadowText) o ∧
      o.stmt.ids.map Id.key = [0, 1, 0] := by
  obtain ⟨o, ho, hkeys⟩ := exists_of_okAnd
    (p := fun o : Output => decide (o.stmt.ids.map Id.key = [0, 1, 0]))
    (x := program (tokenize shadowText)) (by decide +kernel)
  exact ⟨o, ho, (program_scoping shadowText).1 o ho, of_decide_eq_true hkeys⟩

end LearningLinux.FrontEnd
