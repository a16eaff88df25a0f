import LearningLinux.Lib.Scopes
import LearningLinux.FrontEnd.Actions

/-!
# The names in the text of a program

Which names a program declares and uses, and in which blocks, can be read off
its tokens: braces open and close blocks, an identifier between a basic type
and the next semicolon is declared, every other is used. `occurrences` does
so, without a look at what the parser does. The program ends at the brace
that closes its outer block (`outerBlock`); what comes after is not read.

The log of an accepted program has the same names in the same order, each
with the `Id` that was created for it or that it was taken to mean, and these
are the `Id`s in the tree (`STree.perform_adds`).
-/

namespace LearningLinux.FrontEnd

open Lib
open Lib.Scopes

variable {ν : Type}

/-! ## Reading the tokens -/

/-- The tokens up to the brace that brings the depth back to 0. -/
def outerBlock : Nat → List Token → List Token
  | _, [] => []
  | depth, t :: ts =>
      if t = .chr '{' then t :: outerBlock (depth + 1) ts
      else if t = .chr '}' then
        if depth ≤ 1 then [t] else t :: outerBlock (depth - 1) ts
      else t :: outerBlock depth ts

/-- The names among the tokens, called by `f`. Whether an identifier is being
declared is known from the tokens before. -/
def occurrences (f : Word → ν) : Bool → List Token → List (Occ ν Unit)
  | _, [] => []
  | _, .basic _ :: ts => occurrences f true ts
  | declaring, .id w :: ts =>
      (if declaring then .decl (f w) () else .use (f w) ()) ::
        occurrences f declaring ts
  | declaring, .chr c :: ts =>
      if c = '{' then .opened :: occurrences f declaring ts
      else if c = '}' then .closed :: occurrences f declaring ts
      else if c = ';' then occurrences f false ts
      else occurrences f declaring ts
  | declaring, _ :: ts => occurrences f declaring ts

/-- The names of a program as they are spelled. -/
def names (toks : List Token) : List (Occ (List Char) Unit) :=
  occurrences Word.lexeme false (outerBlock 0 toks)

/-! ## Reading the log -/

def Event.occ (f : Word → ν) : Event → Option (Occ ν Id)
  | .opened => some .opened
  | .closed => some .closed
  | .decl id => some (.decl (f id.word) id)
  | .use w id => some (.use (f w) id)
  | .assignSep => none

/-- The log from its beginning on. -/
def text (f : Word → ν) (log : List Event) : List (Occ ν Id) :=
  log.reverse.filterMap (Event.occ f)

/-- A place without what the program made of it. -/
def forget {ι : Type} : Occ ν ι → Occ ν Unit := Occ.map id fun _ => ()

/-- The `Id`s of a tree from left to right. -/
def Expr.ids : Expr → List Id
  | .id i => [i]
  | .temp _ _ => []
  | .const _ => []
  | .arith _ x y => x.ids ++ y.ids
  | .unary x => x.ids
  | .access array index _ => array :: index.ids
  | .or x y => x.ids ++ y.ids
  | .and x y => x.ids ++ y.ids
  | .not x => x.ids
  | .rel _ x y => x.ids ++ y.ids

def Stmt.ids : Stmt → List Id
  | .null => []
  | .set i x => i :: x.ids
  | .setElem array index x => array :: index.ids ++ x.ids
  | .if x s => x.ids ++ s.ids
  | .else x s1 s2 => x.ids ++ s1.ids ++ s2.ids
  | .while _ x s => x.ids ++ s.ids
  | .do _ s x => s.ids ++ x.ids
  | .break _ => []
  | .continue _ => []
  | .seq s1 s2 => s1.ids ++ s2.ids

theorem text_cons (f : Word → ν) (e : Event) (log : List Event) :
    text f (e :: log) = text f log ++ (Event.occ f e).toList := by
  rw [text, text, List.reverse_cons, List.filterMap_append]
  cases h : Event.occ f e <;> simp [h]

theorem text_map {μ : Type} (f : Word → ν) (g : ν → μ) (log : List Event) :
    text (g ∘ f) log = (text f log).map (Occ.map g id) := by
  rw [text, text, List.map_filterMap]
  congr 1
  funext e
  cases e <;> rfl

/-! ## Pieces of a program

The tokens a nonterminal derives can be read on their own: no declaration is
left unfinished, and every brace has its partner.
-/

structure Piece (ts : List Token) : Prop where
  names : ∀ {ν : Type} (f : Word → ν) (rest : List Token),
    occurrences f false (ts ++ rest) =
      occurrences f false ts ++ occurrences f false rest
  braces : ∀ depth rest,
    outerBlock (depth + 1) (ts ++ rest) = ts ++ outerBlock (depth + 1) rest

theorem Piece.nil : Piece [] := ⟨fun _ _ => rfl, fun _ _ => rfl⟩

theorem Piece.append {ts us : List Token} (ht : Piece ts) (hu : Piece us) :
    Piece (ts ++ us) where
  names f rest := by
    rw [List.append_assoc, ht.names, hu.names, ht.names, List.append_assoc]
  braces depth rest := by
    rw [List.append_assoc, ht.braces, hu.braces, List.append_assoc]

/-- A token that is neither a brace nor a type. -/
def Token.plain : Token → Bool
  | .basic _ => .false
  | .chr c => c ≠ '{' ∧ c ≠ '}'
  | _ => .true

theorem Piece.single {t : Token} (h : t.plain = true) : Piece [t] where
  names f rest := by
    cases t with
    | basic b => cases h
    | chr c =>
        have hc : c ≠ '{' ∧ c ≠ '}' := of_decide_eq_true h
        simp [occurrences, hc.1, hc.2]
    | _ => rfl
  braces depth rest := by
    cases t with
    | chr c =>
        have hc : c ≠ '{' ∧ c ≠ '}' := of_decide_eq_true h
        simp [outerBlock, hc.1, hc.2]
    | _ => simp [outerBlock]

theorem Piece.cons {t : Token} {ts : List Token} (h : t.plain = true)
    (hts : Piece ts) : Piece (t :: ts) := (Piece.single h).append hts

/-- A block: its braces are partners. -/
theorem Piece.block {ts : List Token} (hts : Piece ts) :
    Piece (.chr '{' :: ts ++ [Token.chr '}']) where
  names f rest := by
    simp [occurrences, hts.names]
  braces depth rest := by
    simp [outerBlock, hts.braces]

theorem BinLevel.op_plain {l : BinLevel} {tok : Token} {op : BinOp}
    (h : l.op tok = some op) : tok.plain = true := by
  unfold BinLevel.op at h
  split at h <;> first | rfl | cases h

theorem relOp_plain {tok : Token} {op : RelOp} (h : relOp tok = some op) :
    tok.plain = true := by
  unfold relOp at h
  split at h <;> first | rfl | cases h

theorem ETree.piece {k : Level} (t : ETree k) : Piece t.yield := by
  induction t with
  | binary x tok op h y ihx ihy =>
      exact ihx.append (ihy.cons (BinLevel.op_plain h))
  | operand l x ih => exact ih
  | relation x tok op h y ihx ihy =>
      exact ihx.append (ihy.cons (relOp_plain h))
  | plain x ih => exact ih
  | minus x ih => exact ih.cons (by decide)
  | bang x ih => exact ih.cons (by decide)
  | single x ih => exact ih
  | paren x ih => exact (ih.cons (by decide)).append (.single (by decide))
  | elem x ih => exact ih
  | first w i ih =>
      exact ((ih.cons (by decide)).cons (by rfl)).append (.single (by decide))
  | more x i ihx ihi =>
      exact (ihx.append (ihi.cons (by decide))).append (.single (by decide))
  | _ => exact .single (by rfl)

/-! ## Declarations -/

theorem occurrences_dims (f : Word → ν) (dims : List Num)
    (rest : List Token) :
    occurrences f true (dims.flatMap dimTokens ++ rest) =
      occurrences f true rest := by
  induction dims with
  | nil => rfl
  | cons n dims ih =>
      rw [List.flatMap_cons, List.append_assoc]
      exact ih

theorem occurrences_more (f : Word → ν) (more : List (Sep × Word))
    (rest : List Token) :
    occurrences f true
        (more.flatMap (fun p => [p.1.token, Token.id p.2]) ++ rest) =
      more.map (fun p => Occ.decl (f p.2) ()) ++ occurrences f true rest := by
  induction more with
  | nil => rfl
  | cons p more ih =>
      obtain ⟨sep, w⟩ := p
      have hone : ∀ ts, occurrences f true (sep.token :: .id w :: ts) =
          .decl (f w) () :: occurrences f true ts := by
        intro ts
        cases sep <;> rfl
      rw [List.flatMap_cons, List.append_assoc, List.map_cons]
      exact (hone _).trans (congrArg _ ih)

/-- A declaration declares its declarators. -/
theorem Decl.occurrences_yield (f : Word → ν) (d : Decl)
    (rest : List Token) :
    occurrences f false (d.yield ++ rest) =
      Occ.decl (f d.first) () :: d.more.map (fun p => Occ.decl (f p.2) ()) ++
        occurrences f false rest := by
  rw [Decl.yield, List.cons_append, List.cons_append, List.cons_append,
    occurrences, List.append_assoc, List.append_assoc, occurrences_dims,
    List.cons_append, occurrences, occurrences_more]
  rfl

theorem outerBlock_append {ts : List Token} {depth : Nat} {rest : List Token}
    (h : ∀ t ∈ ts, t ≠ .chr '{' ∧ t ≠ .chr '}') :
    outerBlock depth (ts ++ rest) = ts ++ outerBlock depth rest := by
  induction ts with
  | nil => rfl
  | cons t ts ih =>
      obtain ⟨hopen, hclose⟩ := h t List.mem_cons_self
      rw [List.cons_append, outerBlock, if_neg hopen, if_neg hclose,
        ih fun u hu => h u (List.mem_cons_of_mem t hu)]
      rfl

theorem Decl.yield_braces (d : Decl) :
    ∀ t ∈ d.yield, t ≠ .chr '{' ∧ t ≠ .chr '}' := by
  intro t ht
  rw [Decl.yield] at ht
  simp only [List.mem_append, List.mem_cons, List.mem_flatMap, dimTokens,
    List.not_mem_nil, or_false] at ht
  rcases ht with ((rfl | ⟨n, -, rfl | rfl | rfl⟩) | rfl |
    ⟨⟨sep, w⟩, -, rfl | rfl⟩) | rfl
  any_goals decide
  · exact ⟨by simp, by simp⟩
  · exact ⟨by simp, by simp⟩
  · exact ⟨by simp, by simp⟩
  · cases sep <;> exact ⟨by simp [Sep.token], by simp [Sep.token]⟩
  · exact ⟨by simp, by simp⟩

theorem Decl.piece (d : Decl) : Piece d.yield where
  names f rest := by
    rw [d.occurrences_yield, ← List.append_nil d.yield,
      d.occurrences_yield, List.append_assoc]
    rfl
  braces depth rest := outerBlock_append d.yield_braces

theorem decls_piece (ds : List Decl) : Piece (ds.flatMap Decl.yield) := by
  induction ds with
  | nil => exact .nil
  | cons d ds ih =>
      rw [List.flatMap_cons]
      exact d.piece.append ih

theorem STree.piece {k : SKind} (t : STree k) : Piece t.yield := by
  induction t with
  | empty => exact .single (by decide)
  | ifThen c s ih =>
      exact ((c.piece.cons (by decide)).cons (by decide)).append
        (ih.cons (by decide))
  | ifElse c s1 s2 ih1 ih2 =>
      exact (((c.piece.cons (by decide)).cons (by decide)).append
        (ih1.cons (by decide))).append (ih2.cons (by decide))
  | whileDo c s ih =>
      exact ((c.piece.cons (by decide)).cons (by decide)).append
        (ih.cons (by decide))
  | doWhile s c ih =>
      exact ((ih.cons (by decide)).append
        ((c.piece.cons (by decide)).cons (by decide))).append
        (.cons (by decide) (.single (by decide)))
  | «break» => exact .cons (by decide) (.single (by decide))
  | «continue» => exact .cons (by decide) (.single (by decide))
  | block b ih => exact ih.block
  | assign w x =>
      exact ((x.piece.cons (by decide)).cons (by rfl)).append
        (.single (by decide))
  | assignElem loc x =>
      exact (loc.piece.append (x.piece.cons (by decide))).append
        (.single (by decide))
  | done ds => exact decls_piece ds
  | cons ds s rest ihs ihr => exact ((decls_piece ds).append ihs).append ihr

/-! ## What the actions of a tree write down -/

/-- From `e` to `e'` the places `ns` have been written down, and the `Id`s
`ids` of the uses among them. -/
structure Adds (f : Word → ν) (e e' : Sem) (ns : List (Occ ν Unit))
    (ids : List Id) : Prop where
  names : (text f e'.log).map forget = (text f e.log).map forget ++ ns
  ids : (text f e'.log).filterMap Occ.used =
    (text f e.log).filterMap Occ.used ++ ids

variable {f : Word → ν} {e e' e'' : Sem}

theorem Adds.refl : Adds f e e [] [] :=
  ⟨(List.append_nil _).symm, (List.append_nil _).symm⟩

theorem Adds.trans {ns ns' : List (Occ ν Unit)} {ids ids' : List Id}
    (h : Adds f e e' ns ids) (h' : Adds f e' e'' ns' ids') :
    Adds f e e'' (ns ++ ns') (ids ++ ids') :=
  ⟨by rw [h'.names, h.names, List.append_assoc],
    by rw [h'.ids, h.ids, List.append_assoc]⟩

/-- One event. -/
theorem Adds.record {v : Event} (h : e'.log = v :: e.log) :
    Adds f e e' ((v.occ f).toList.map forget)
      ((v.occ f).toList.filterMap Occ.used) := by
  constructor
  · rw [h, text_cons, List.map_append]
  · rw [h, text_cons, List.filterMap_append]

theorem Adds.resolve {w : Word} {id : Id}
    (h : resolve w e = .ok (id, e')) : Adds f e e' [.use (f w) ()] [id] := by
  obtain ⟨-, rfl⟩ := resolve_ok.mp h
  exact Adds.record (v := .use w id) rfl

theorem Adds.declare {w : Word} {p : Ty} {u : Unit}
    (h : declare w p e = .ok (u, e')) : Adds f e e' [.decl (f w) ()] [] := by
  obtain ⟨table, prev, -, -, rfl⟩ := declare_ok.mp h
  exact Adds.record (v := .decl ⟨w, p, e.used, e.now⟩) rfl

theorem newBin_ids {op : BinOp} {x y z : Expr} (h : newBin op x y = .ok z) :
    z.ids = x.ids ++ y.ids := by
  cases op with
  | or => rw [(typed_ok.mp h).1, Expr.ids]
  | and => rw [(typed_ok.mp h).1, Expr.ids]
  | rel op => rw [(typed_ok.mp h).1, Expr.ids]
  | arith op => rw [(typed_ok.mp h).1, Expr.ids]

theorem scale_ids {i t1 : Expr} {p q : Ty} (h : scale i p = .ok (t1, q)) :
    t1.ids = i.ids := by
  obtain ⟨size, -, hn⟩ := scale_ok.mp h
  rw [(typed_ok.mp hn).1, Expr.ids, Expr.ids, List.append_nil]

theorem occurrences_op {l : BinLevel} {tok : Token} {op : BinOp}
    (h : l.op tok = some op) (ts : List Token) :
    occurrences f false (tok :: ts) = occurrences f false ts := by
  unfold BinLevel.op at h
  split at h <;> first | rfl | cases h

theorem occurrences_relOp {tok : Token} {op : RelOp} (h : relOp tok = some op)
    (ts : List Token) :
    occurrences f false (tok :: ts) = occurrences f false ts := by
  unfold relOp at h
  split at h <;> first | rfl | cases h

theorem ETree.perform_adds {k : Level} (t : ETree k) :
    ∀ {e e' : Sem} {x : Expr}, t.perform e = .ok (x, e') →
      Adds f e e' (occurrences f .false t.yield) x.ids := by
  induction t with
  | binary x tok op h y ihx ihy =>
      intro e e' z hz
      obtain ⟨x', y', e₁, hx, hy, hnew⟩ := perform_binary.mp hz
      rw [newBin_ids hnew, ETree.yield, x.piece.names, occurrences_op h]
      exact (ihx hx).trans (ihy hy)
  | operand l x ih => intro e e' z hz; exact ih hz
  | relation x tok op h y ihx ihy =>
      intro e e' z hz
      obtain ⟨x', y', e₁, hx, hy, hnew⟩ := perform_relation.mp hz
      rw [@newBin_ids (.rel op) _ _ _ hnew, ETree.yield, x.piece.names,
        occurrences_relOp h]
      exact (ihx hx).trans (ihy hy)
  | plain x ih => intro e e' z hz; exact ih hz
  | minus x ih =>
      intro e e' z hz
      obtain ⟨x', hx, hnew⟩ := perform_minus.mp hz
      rw [(typed_ok.mp hnew).1, Expr.ids]
      exact ih hx
  | bang x ih =>
      intro e e' z hz
      obtain ⟨x', hx, hnew⟩ := perform_bang.mp hz
      rw [(typed_ok.mp hnew).1, Expr.ids]
      exact ih hx
  | single x ih => intro e e' z hz; exact ih hz
  | paren x ih =>
      intro e e' z hz
      have hyield : occurrences f .false (ETree.paren x).yield =
          occurrences f .false x.yield ++ [] := x.piece.names f [Token.chr ')']
      rw [hyield, List.append_nil]
      exact ih hz
  | num n => intro e e' z hz; cases hz; exact Adds.refl
  | real r => intro e e' z hz; cases hz; exact Adds.refl
  | true => intro e e' z hz; cases hz; exact Adds.refl
  | false => intro e e' z hz; cases hz; exact Adds.refl
  | var w =>
      intro e e' z hz
      obtain ⟨id, hres, rfl⟩ := perform_var.mp hz
      exact Adds.resolve hres
  | elem x ih => intro e e' z hz; exact ih hz
  | first w i ih =>
      intro e e' z hz
      obtain ⟨id, e₁, i', t1, type, hres, hi, hscale, rfl⟩ :=
        perform_first.mp hz
      have hyield : occurrences f .false (ETree.first w i).yield =
          .use (f w) () :: (occurrences f .false i.yield ++ []) :=
        congrArg _ (i.piece.names f [Token.chr ']'])
      rw [hyield, List.append_nil, Expr.ids, scale_ids hscale]
      exact (Adds.resolve hres).trans (ih hi)
  | more x i ihx ihi =>
      intro e e' z hz
      obtain ⟨id, loc, type, e₁, i', t1, type', t2, hx, hi, hscale, hadd,
        rfl⟩ := perform_more.mp hz
      have hindex : occurrences f .false
          (.chr '[' :: (i.yield ++ [Token.chr ']'])) =
          occurrences f .false i.yield ++ [] := i.piece.names f [Token.chr ']']
      rw [ETree.yield, List.append_assoc, x.piece.names, List.cons_append,
        hindex, List.append_nil, Expr.ids,
        @newBin_ids (.arith .add) _ _ _ hadd, scale_ids hscale]
      exact (ihx hx).trans (ihi hi)

theorem performMore_adds {p : Ty} : ∀ (more : List (Sep × Word))
    {e e' : Sem} {u : Unit}, performMore p more e = .ok (u, e') →
    Adds f e e' (more.map fun q => .decl (f q.2) ()) [] := by
  intro more
  induction more with
  | nil => intro e e' u h; cases h; exact Adds.refl
  | cons q more ih =>
      intro e e' u h
      obtain ⟨sep, w⟩ := q
      obtain ⟨e₁, hd, hm⟩ := performMore_cons.mp h
      have hsep : Adds f e (e.separated sep) [] [] := by
        cases sep with
        | comma => exact Adds.refl
        | assign => exact Adds.record (v := .assignSep) rfl
      exact hsep.trans ((Adds.declare hd).trans (ih hm))

theorem performDecls_adds : ∀ (ds : List Decl) {e e' : Sem} {u : Unit},
    performDecls ds e = .ok (u, e') →
    Adds f e e' (occurrences f false (ds.flatMap Decl.yield)) [] := by
  intro ds
  induction ds with
  | nil => intro e e' u h; cases h; exact Adds.refl
  | cons d ds ih =>
      intro e e' u h
      obtain ⟨e₁, e₂, hf, hm, hds⟩ := performDecls_cons.mp h
      rw [List.flatMap_cons, d.occurrences_yield]
      exact ((Adds.declare hf).trans (performMore_adds _ hm)).trans (ih hds)

/-- The actions of a tree write down the names of its tokens. -/
theorem STree.perform_adds {k : SKind} (t : STree k) :
    ∀ {e e' : Sem} {s : Stmt}, t.perform e = .ok (s, e') →
      Adds f e e' (occurrences f false t.yield) s.ids := by
  induction t with
  | empty => intro e e' s h; cases h; exact Adds.refl
  | ifThen c b ih =>
      intro e e' s h
      obtain ⟨x, e₁, y, hx, hy, -, rfl⟩ := perform_ifThen.mp h
      have hyield : occurrences f false (STree.ifThen c b).yield =
          occurrences f false c.yield ++ occurrences f false b.yield :=
        c.piece.names f (.chr ')' :: b.yield)
      rw [hyield]
      exact (c.perform_adds hx).trans (ih hy)
  | ifElse c b1 b2 ih1 ih2 =>
      intro e e' s h
      obtain ⟨x, e₁, y, e₂, z, hx, hy, hz, -, rfl⟩ := perform_ifElse.mp h
      have hbranches : occurrences f false
          (.chr ')' :: b1.yield ++ .else :: b2.yield) =
          occurrences f false b1.yield ++ occurrences f false b2.yield :=
        b1.piece.names f (.else :: b2.yield)
      have hyield : occurrences f false (STree.ifElse c b1 b2).yield =
          occurrences f false c.yield ++ (occurrences f false b1.yield ++
            occurrences f false b2.yield) := by
        rw [← hbranches, STree.yield, List.append_assoc]
        exact c.piece.names f (.chr ')' :: b1.yield ++ .else :: b2.yield)
      rw [hyield, Stmt.ids, List.append_assoc]
      exact (c.perform_adds hx).trans ((ih1 hy).trans (ih2 hz))
  | whileDo c b ih =>
      intro e e' s h
      obtain ⟨x, e₁, y, e₂, hx, hy, -, rfl, rfl⟩ := perform_whileDo.mp h
      have hyield : occurrences f false (STree.whileDo c b).yield =
          occurrences f false c.yield ++ occurrences f false b.yield :=
        c.piece.names f (.chr ')' :: b.yield)
      rw [hyield]
      obtain ⟨hnames, hids⟩ := (c.perform_adds hx).trans (ih hy)
      exact ⟨hnames, hids⟩
  | doWhile b c ih =>
      intro e e' s h
      obtain ⟨y, e₁, x, e₂, hy, hx, -, rfl, rfl⟩ := perform_doWhile.mp h
      have htest : occurrences f false
          (.while :: .chr '(' :: c.yield ++ [Token.chr ')', Token.chr ';']) =
          occurrences f false c.yield ++ [] :=
        c.piece.names f [Token.chr ')', Token.chr ';']
      have hyield : occurrences f false (STree.doWhile b c).yield =
          occurrences f false b.yield ++ occurrences f false c.yield := by
        rw [← List.append_nil (occurrences f false c.yield), ← htest,
          STree.yield, List.append_assoc]
        exact b.piece.names f _
      rw [hyield]
      obtain ⟨hnames, hids⟩ := (ih hy).trans (c.perform_adds hx)
      exact ⟨hnames, hids⟩
  | «break» =>
      intro e e' s h
      obtain ⟨l, -, rfl, rfl⟩ := makeBreak_ok.mp h
      exact Adds.refl
  | «continue» =>
      intro e e' s h
      obtain ⟨l, -, rfl, rfl⟩ := makeContinue_ok.mp h
      exact Adds.refl
  | block b ih =>
      intro e e' s h
      obtain ⟨e₁, hs, rfl⟩ := perform_block.mp h
      have hopen : Adds f e e.opened [.opened] [] :=
        Adds.record (v := .opened) rfl
      have hclose : Adds f e₁ (e.closed e₁) [.closed] [] :=
        Adds.record (v := .closed) rfl
      have hyield : occurrences f false (STree.block b).yield =
          .opened :: (occurrences f false b.yield ++ [Occ.closed]) := by
        show .opened :: occurrences f false (b.yield ++ [Token.chr '}']) = _
        rw [b.piece.names]
        rfl
      rw [hyield, ← List.append_nil s.ids]
      exact hopen.trans ((ih hs).trans hclose)
  | assign w x =>
      intro e e' s h
      obtain ⟨id, e₁, y, hres, hy, -, rfl⟩ := perform_assign.mp h
      have hyield : occurrences f false (STree.assign w x).yield =
          .use (f w) () :: (occurrences f false x.yield ++ []) :=
        congrArg _ (x.piece.names f [Token.chr ';'])
      rw [hyield, List.append_nil]
      exact (Adds.resolve hres).trans (x.perform_adds hy)
  | assignElem loc x =>
      intro e e' s h
      obtain ⟨id, i, type, e₁, y, hloc, hy, -, rfl⟩ := perform_assignElem.mp h
      have hvalue : occurrences f false
          (.chr '=' :: (x.yield ++ [Token.chr ';'])) =
          occurrences f false x.yield ++ [] := x.piece.names f [Token.chr ';']
      rw [STree.yield, List.append_assoc, loc.piece.names, List.cons_append,
        hvalue, List.append_nil]
      exact (loc.perform_adds hloc).trans (x.perform_adds hy)
  | done ds =>
      intro e e' s h
      obtain ⟨hd, rfl⟩ := perform_done.mp h
      exact performDecls_adds ds hd
  | cons ds b rest ihb ihr =>
      intro e e' s h
      obtain ⟨e₁, y, e₂, z, hd, hy, hz, rfl⟩ := perform_cons.mp h
      rw [STree.yield, List.append_assoc, (decls_piece ds).names,
        b.piece.names]
      exact (performDecls_adds ds hd).trans ((ihb hy).trans (ihr hz))

/-! ## Accepted programs -/

theorem outerBlock_program {b : STree .stmts} {rest : List Token} :
    outerBlock 0 (.chr '{' :: b.yield ++ .chr '}' :: rest) =
      (STree.block b).yield := by
  show .chr '{' :: outerBlock 1 (b.yield ++ .chr '}' :: rest) = _
  rw [b.piece.braces]
  rfl

/-- The log of an accepted program has the names of its text, and the tree the
`Id`s they were taken to mean. -/
theorem program_text {toks : List Token} {o : Output}
    (h : program toks = .ok o) (f : Word → ν) :
    (text f o.log).map forget = occurrences f false (outerBlock 0 toks) ∧
      (text f o.log).filterMap Occ.used = o.stmt.ids := by
  obtain ⟨b, rest, sem, rfl, hp, hlog, -⟩ := program_sound h
  obtain ⟨hnames, hids⟩ := (STree.block b).perform_adds (f := f) hp
  rw [hlog, outerBlock_program]
  exact ⟨hnames, hids⟩

end LearningLinux.FrontEnd
