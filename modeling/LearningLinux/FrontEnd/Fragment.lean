import LearningLinux.FrontEnd.Accepted

/-!
# The code of a tree as a derivation

What `gen`, `reduce` and `jumping` add to the output, as relations between a
tree and its code: `OpGen` and `Reduces` for the methods of `Op`, `Jumps` for
`jumping`, `Gens` for `gen` of an expression and `StmtCode` for `gen` of a
statement. They keep the two counters and drop the rest of the generator's
state. The pointers of `break` and `continue` are resolved on the way: the
pair `loop` holds `begin` and `after` of the innermost loop around.

`Stmt.gen_code` is the one place where the generator is run. It says that a
well-typed tree has a derivation, that the generator makes exactly its code,
and so that it does not throw. Labels, operands and the meaning of the code
are then inductions over derivations.
-/

namespace LearningLinux.FrontEnd

open Lib

/-! ## Counters and chunks -/

/-- `Node.labels` and `Temp.count`. -/
structure Counters where
  labels : Nat
  count : Nat

/-- A piece of output, with the calls of `jumping` made for it. -/
structure Chunk where
  items : List Item
  calls : List (Nat × Nat)

def Chunk.append (k k' : Chunk) : Chunk :=
  ⟨k.items ++ k'.items, k.calls ++ k'.calls⟩

def GState.counters (s : GState) : Counters := ⟨s.labels, s.count⟩

/-- The state after adding a chunk. -/
def GState.add (s : GState) (σ : Counters) (k : Chunk) : GState :=
  { s with
    labels := σ.labels
    count := σ.count
    out := s.out ++ k.items
    calls := s.calls ++ k.calls }

theorem GState.add_add (s : GState) (σ σ' : Counters) (k k' : Chunk) :
    (s.add σ k).add σ' k' =
      s.add σ' (k.append k') := by
  simp only [GState.add, Chunk.append, List.append_assoc]

theorem GState.add_counters (s : GState) (σ : Counters) (k : Chunk) :
    (s.add σ k).counters = σ := rfl

theorem GState.add_nil (s : GState) : s.add s.counters ⟨[], []⟩ = s := by
  simp only [GState.add, GState.counters, List.append_nil]

/-! ## Classes of nodes -/

/-- A node of a subclass of `Op`. -/
def Expr.isOp : Expr → Bool
  | .arith _ _ _ => true
  | .unary _ => true
  | .access _ _ _ => true
  | _ => false

/-- A node of a subclass of `Logical`. -/
def Expr.isLogical : Expr → Bool
  | .or _ _ => true
  | .and _ _ => true
  | .not _ => true
  | .rel _ _ _ => true
  | _ => false

/-! ## Expressions -/

mutual

/-- `gen` of an `Op` node, over the counter of temporaries. -/
inductive OpGen : Expr → Expr → Nat → Nat → List Item → Prop where
  | arith {op : ArithOp} {x y x' y' : Expr} {c₀ c₁ c₂ : Nat}
      {k₁ k₂ : List Item} (hx : Reduces x x' c₀ c₁ k₁)
      (hy : Reduces y y' c₁ c₂ k₂) :
      OpGen (.arith op x y) (.arith op x' y') c₀ c₂ (k₁ ++ k₂)
  | unary {x x' : Expr} {c₀ c₁ : Nat} {k : List Item}
      (hx : Reduces x x' c₀ c₁ k) : OpGen (.unary x) (.unary x') c₀ c₁ k
  | access {a : Id} {i i' : Expr} {type : Ty} {c₀ c₁ : Nat} {k : List Item}
      (hi : Reduces i i' c₀ c₁ k) :
      OpGen (.access a i type) (.access a i' type) c₀ c₁ k

/-- `reduce`. -/
inductive Reduces : Expr → Expr → Nat → Nat → List Item → Prop where
  | op {e g : Expr} {c₀ c₁ : Nat} {k : List Item}
      (hg : OpGen e g c₀ c₁ k) :
      Reduces e (.temp (c₁ + 1) e.type) c₀ (c₁ + 1)
        (k ++ [Item.instr (.setTemp (c₁ + 1) g)])
  | same {e : Expr} {c : Nat} (he : e.isOp = false) : Reduces e e c c []

end

/-- What `emitjumps` emits. -/
def jumpItems (test : Expr) (t f : Nat) : List Item :=
  if t ≠ 0 ∧ f ≠ 0 then [.instr (.ifTrue test t), .instr (.goto f)]
  else if t ≠ 0 then [.instr (.ifTrue test t)]
  else if f ≠ 0 then [.instr (.ifFalse test f)]
  else []

/-- `if (l != 0) emit("goto L" + l)`. -/
def gotoItems (l : Nat) : List Item :=
  if l ≠ 0 then [.instr (.goto l)] else []

/-- `jumping(t, f)` of an expression of type `bool`. -/
inductive Jumps : Expr → Nat → Nat → Counters → Counters → Chunk → Prop where
  | true {t f : Nat} {σ : Counters} :
      Jumps (.const .true) t f σ σ ⟨gotoItems t, [(t, f)]⟩
  | false {t f : Nat} {σ : Counters} :
      Jumps (.const .false) t f σ σ ⟨gotoItems f, [(t, f)]⟩
  | id {i : Id} {t f : Nat} {σ : Counters} :
      Jumps (.id i) t f σ σ ⟨jumpItems (.id i) t f, [(t, f)]⟩
  | access {a : Id} {i x : Expr} {type : Ty} {t f l c₀ c₁ : Nat}
      {k : List Item} (hx : Reduces (.access a i type) x c₀ c₁ k) :
      Jumps (.access a i type) t f ⟨l, c₀⟩ ⟨l, c₁⟩
        ⟨k ++ jumpItems x t f, [(t, f)]⟩
  | rel {op : RelOp} {x y x' y' : Expr} {t f l c₀ c₁ c₂ : Nat}
      {k₁ k₂ : List Item} (hx : Reduces x x' c₀ c₁ k₁)
      (hy : Reduces y y' c₁ c₂ k₂) :
      Jumps (.rel op x y) t f ⟨l, c₀⟩ ⟨l, c₂⟩
        ⟨k₁ ++ k₂ ++ jumpItems (.rel op x' y') t f, [(t, f)]⟩
  | not {x : Expr} {t f : Nat} {σ σ' : Counters} {k : Chunk}
      (hx : Jumps x f t σ σ' k) :
      Jumps (.not x) t f σ σ' ⟨k.items, (t, f) :: k.calls⟩
  | orTo {x y : Expr} {t f : Nat} {σ σ₁ σ₂ : Counters} {k₁ k₂ : Chunk}
      (ht : t ≠ 0) (hx : Jumps x t 0 σ σ₁ k₁) (hy : Jumps y t f σ₁ σ₂ k₂) :
      Jumps (.or x y) t f σ σ₂
        ⟨k₁.items ++ k₂.items, (t, f) :: k₁.calls ++ k₂.calls⟩
  | orFall {x y : Expr} {f l c : Nat} {σ₁ σ₂ : Counters} {k₁ k₂ : Chunk}
      (hx : Jumps x (l + 1) 0 ⟨l + 1, c⟩ σ₁ k₁) (hy : Jumps y 0 f σ₁ σ₂ k₂) :
      Jumps (.or x y) 0 f ⟨l, c⟩ σ₂
        ⟨k₁.items ++ k₂.items ++ [Item.label (l + 1)],
          (0, f) :: k₁.calls ++ k₂.calls⟩
  | andTo {x y : Expr} {t f : Nat} {σ σ₁ σ₂ : Counters} {k₁ k₂ : Chunk}
      (hf : f ≠ 0) (hx : Jumps x 0 f σ σ₁ k₁) (hy : Jumps y t f σ₁ σ₂ k₂) :
      Jumps (.and x y) t f σ σ₂
        ⟨k₁.items ++ k₂.items, (t, f) :: k₁.calls ++ k₂.calls⟩
  | andFall {x y : Expr} {t l c : Nat} {σ₁ σ₂ : Counters} {k₁ k₂ : Chunk}
      (hx : Jumps x 0 (l + 1) ⟨l + 1, c⟩ σ₁ k₁) (hy : Jumps y t 0 σ₁ σ₂ k₂) :
      Jumps (.and x y) t 0 ⟨l, c⟩ σ₂
        ⟨k₁.items ++ k₂.items ++ [Item.label (l + 1)],
          (t, 0) :: k₁.calls ++ k₂.calls⟩

/-- The instructions `Logical.gen` puts behind the jumps. -/
def logicalItems (n f a : Nat) : List Item :=
  [.instr (.setTemp n (.const .true)), .instr (.goto a), .label f,
    .instr (.setTemp n (.const .false)), .label a]

/-- `gen` of an expression. -/
inductive Gens : Expr → Expr → Counters → Counters → Chunk → Prop where
  | op {e g : Expr} {l c₀ c₁ : Nat} {k : List Item}
      (hg : OpGen e g c₀ c₁ k) : Gens e g ⟨l, c₀⟩ ⟨l, c₁⟩ ⟨k, []⟩
  | same {e : Expr} {σ : Counters} (ho : e.isOp = false)
      (hl : e.isLogical = false) : Gens e e σ σ ⟨[], []⟩
  | logical {e : Expr} {l c : Nat} {σ : Counters} {k : Chunk}
      (he : e.isLogical = true)
      (hj : Jumps e 0 (l + 1) ⟨l + 2, c + 1⟩ σ k) :
      Gens e (.temp (c + 1) e.type) ⟨l, c⟩ σ
        ⟨k.items ++ logicalItems (c + 1) (l + 1) (l + 2), k.calls⟩

/-! ## Statements -/

/-- `gen(b, a)` of a statement. -/
inductive StmtCode : Stmt → Nat → Nat → Nat × Nat → Counters → Counters →
    Chunk → Prop where
  | null {b a : Nat} {loop : Nat × Nat} {σ : Counters} :
      StmtCode .null b a loop σ σ ⟨[], []⟩
  | set {i : Id} {x g : Expr} {b a : Nat} {loop : Nat × Nat}
      {σ σ' : Counters} {k : Chunk} (hx : Gens x g σ σ' k) :
      StmtCode (.set i x) b a loop σ σ'
        ⟨k.items ++ [Item.instr (.set i g)], k.calls⟩
  | setElem {i : Id} {x y x' y' : Expr} {b a : Nat} {loop : Nat × Nat}
      {l c₀ c₁ c₂ : Nat} {k₁ k₂ : List Item} (hx : Reduces x x' c₀ c₁ k₁)
      (hy : Reduces y y' c₁ c₂ k₂) :
      StmtCode (.setElem i x y) b a loop ⟨l, c₀⟩ ⟨l, c₂⟩
        ⟨k₁ ++ k₂ ++ [Item.instr (.store i x' y')], []⟩
  | if {x : Expr} {s : Stmt} {b a : Nat} {loop : Nat × Nat} {l c : Nat}
      {σ₁ σ₂ : Counters} {k₁ k₂ : Chunk}
      (hx : Jumps x 0 a ⟨l + 1, c⟩ σ₁ k₁)
      (hs : StmtCode s (l + 1) a loop σ₁ σ₂ k₂) :
      StmtCode (.if x s) b a loop ⟨l, c⟩ σ₂
        ⟨k₁.items ++ .label (l + 1) :: k₂.items, k₁.calls ++ k₂.calls⟩
  | else {x : Expr} {s1 s2 : Stmt} {b a : Nat} {loop : Nat × Nat} {l c : Nat}
      {σ₁ σ₂ σ₃ : Counters} {k₁ k₂ k₃ : Chunk}
      (hx : Jumps x 0 (l + 2) ⟨l + 2, c⟩ σ₁ k₁)
      (hs1 : StmtCode s1 (l + 1) a loop σ₁ σ₂ k₂)
      (hs2 : StmtCode s2 (l + 2) a loop σ₂ σ₃ k₃) :
      StmtCode (.else x s1 s2) b a loop ⟨l, c⟩ σ₃
        ⟨k₁.items ++ .label (l + 1) :: k₂.items ++
            .instr (.goto a) :: .label (l + 2) :: k₃.items,
          k₁.calls ++ k₂.calls ++ k₃.calls⟩
  | while {n : Nat} {x : Expr} {s : Stmt} {b a : Nat} {loop : Nat × Nat}
      {σ : Counters} {l c : Nat} {σ₂ : Counters} {k₁ k₂ : Chunk}
      (hx : Jumps x 0 a σ ⟨l, c⟩ k₁)
      (hs : StmtCode s (l + 1) b (b, a) ⟨l + 1, c⟩ σ₂ k₂) :
      StmtCode (.while n x s) b a loop σ σ₂
        ⟨k₁.items ++ Item.label (l + 1) :: k₂.items ++ [Item.instr (.goto b)],
          k₁.calls ++ k₂.calls⟩
  | do {n : Nat} {x : Expr} {s : Stmt} {b a : Nat} {loop : Nat × Nat}
      {l c : Nat} {σ₁ σ₂ : Counters} {k₁ k₂ : Chunk}
      (hs : StmtCode s b (l + 1) (b, a) ⟨l + 1, c⟩ σ₁ k₁)
      (hx : Jumps x b 0 σ₁ σ₂ k₂) :
      StmtCode (.do n s x) b a loop ⟨l, c⟩ σ₂
        ⟨k₁.items ++ .label (l + 1) :: k₂.items, k₁.calls ++ k₂.calls⟩
  | break {n b a : Nat} {loop : Nat × Nat} {σ : Counters} :
      StmtCode (.break n) b a loop σ σ ⟨[.instr (.goto loop.2)], []⟩
  | continue {n b a : Nat} {loop : Nat × Nat} {σ : Counters} :
      StmtCode (.continue n) b a loop σ σ ⟨[.instr (.goto loop.1)], []⟩
  | seqRight {s2 : Stmt} {b a : Nat} {loop : Nat × Nat} {σ σ' : Counters}
      {k : Chunk} (hs : StmtCode s2 b a loop σ σ' k) :
      StmtCode (.seq .null s2) b a loop σ σ' k
  | seqLeft {s1 : Stmt} {b a : Nat} {loop : Nat × Nat} {σ σ' : Counters}
      {k : Chunk} (hn : s1 ≠ .null) (hs : StmtCode s1 b a loop σ σ' k) :
      StmtCode (.seq s1 .null) b a loop σ σ' k
  | seq {s1 s2 : Stmt} {b a : Nat} {loop : Nat × Nat} {l c : Nat}
      {σ₁ σ₂ : Counters} {k₁ k₂ : Chunk} (hn1 : s1 ≠ .null)
      (hn2 : s2 ≠ .null) (hs1 : StmtCode s1 b (l + 1) loop ⟨l + 1, c⟩ σ₁ k₁)
      (hs2 : StmtCode s2 (l + 1) a loop σ₁ σ₂ k₂) :
      StmtCode (.seq s1 s2) b a loop ⟨l, c⟩ σ₂
        ⟨k₁.items ++ .label (l + 1) :: k₂.items, k₁.calls ++ k₂.calls⟩

/-! ## The generator makes the code of a derivation -/

theorem Reduces.type {e x : Expr} {c c' : Nat} {k : List Item}
    (h : Reduces e x c c' k) : x.type = e.type := by
  cases h with
  | op hg => rfl
  | same he => rfl

/-- A method of an expression runs from the counters `σ` to `σ'`, returns `x`
and adds the chunk `k`, whatever the rest of the state is. -/
def Ran {α : Type} (m : G α) (σ : Counters) (x : α) (σ' : Counters)
    (k : Chunk) : Prop :=
  ∀ s : GState, s.counters = σ → m s = .ok (x, s.add σ' k)

theorem Ran.bind {α β : Type} {m : G α} {f : α → G β} {x : α} {y : β}
    {σ σ₁ σ₂ : Counters} {k₁ k₂ : Chunk} (h : Ran m σ x σ₁ k₁)
    (hf : Ran (f x) σ₁ y σ₂ k₂) : Ran (m >>= f) σ y σ₂ (k₁.append k₂) := by
  intro s hs
  rw [bind_run (h s hs), hf _ (s.add_counters σ₁ k₁), GState.add_add]

theorem Ran.cast {α : Type} {m : G α} {x : α} {σ σ' : Counters} {k k' : Chunk}
    (h : Ran m σ x σ' k) (hk : k = k') : Ran m σ x σ' k' := hk ▸ h

theorem ran_pure {α : Type} {σ : Counters} (x : α) :
    Ran (pure x : G α) σ x σ ⟨[], []⟩ := by
  intro s hs
  rw [← hs, GState.add_nil]
  rfl

theorem ran_check {α : Type} {σ : Counters} {m : Except Err α} {x : α}
    (h : m = .ok x) : Ran (check m) σ x σ ⟨[], []⟩ := by
  intro s hs
  rw [← hs, GState.add_nil, check, h]
  rfl

theorem ran_emit {σ : Counters} (i : Instr) :
    Ran (emit i) σ () σ ⟨[.instr i], []⟩ := by
  intro s hs
  simp only [← hs, emit, GState.add, GState.counters, List.append_nil]

theorem ran_emitlabel {σ : Counters} (l : Nat) :
    Ran (emitlabel l) σ () σ ⟨[.label l], []⟩ := by
  intro s hs
  simp only [← hs, emitlabel, GState.add, GState.counters, List.append_nil]

theorem ran_newlabel {l c : Nat} :
    Ran newlabel ⟨l, c⟩ (l + 1) ⟨l + 1, c⟩ ⟨[], []⟩ := by
  intro s hs
  cases hs
  simp only [newlabel, GState.add, List.append_nil]

theorem ran_newTemp {l c : Nat} :
    Ran newTemp ⟨l, c⟩ (c + 1) ⟨l, c + 1⟩ ⟨[], []⟩ := by
  intro s hs
  cases hs
  simp only [newTemp, GState.add, List.append_nil]

theorem ran_called {σ : Counters} (t f : Nat) :
    Ran (called t f) σ () σ ⟨[], [(t, f)]⟩ := by
  intro s hs
  simp only [← hs, called, GState.add, GState.counters, List.append_nil]

theorem ran_emitjumps {σ : Counters} (test : Expr) (t f : Nat) :
    Ran (emitjumps test t f) σ () σ ⟨jumpItems test t f, []⟩ := by
  rw [emitjumps, jumpItems]
  split
  · exact Ran.cast (Ran.bind (ran_emit _) (ran_emit _)) rfl
  · split
    · exact ran_emit _
    · split
      · exact ran_emit _
      · exact ran_pure ()

/-! ### `reduce` -/

theorem Expr.reduce_op {e : Expr} (h : e.isOp = true) :
    e.reduce = opReduce e.type e.gen := by
  cases e with
  | arith op x y => rfl
  | unary x => rfl
  | access a i type => rfl
  | _ => cases h

theorem Expr.reduce_same {e : Expr} (h : e.isOp = false) :
    e.reduce = pure e := by
  cases e with
  | arith op x y => cases h
  | unary x => cases h
  | access a i type => cases h
  | _ => rfl

/-- `Op.reduce`, after `gen`. -/
theorem ran_opReduce {type : Option Ty} {gen : G Expr} {g : Expr}
    {l c₀ c : Nat} {k : List Item} (h : Ran gen ⟨l, c₀⟩ g ⟨l, c⟩ ⟨k, []⟩) :
    Ran (opReduce type gen) ⟨l, c₀⟩ (.temp (c + 1) type) ⟨l, c + 1⟩
      ⟨k ++ [Item.instr (.setTemp (c + 1) g)], []⟩ := by
  rw [opReduce]
  exact Ran.cast (Ran.bind h (Ran.bind ran_newTemp
    (Ran.bind (ran_emit _) (ran_pure _)))) rfl

/-- `reduce` of a node whose `gen` runs if it is an `Op`. -/
theorem Expr.reduce_run {e : Expr} (hgen : e.isOp = true → ∀ l c₀ : Nat,
      ∃ g c k, OpGen e g c₀ c k ∧ Ran e.gen ⟨l, c₀⟩ g ⟨l, c⟩ ⟨k, []⟩)
    (l c₀ : Nat) : ∃ x c k, Reduces e x c₀ c k ∧
      Ran e.reduce ⟨l, c₀⟩ x ⟨l, c⟩ ⟨k, []⟩ := by
  by_cases ho : e.isOp = true
  · obtain ⟨g, c, k, hg, hrun⟩ := hgen ho l c₀
    rw [Expr.reduce_op ho]
    exact ⟨_, _, _, .op hg, ran_opReduce hrun⟩
  · have hn : e.isOp = false := by simpa using ho
    rw [Expr.reduce_same hn]
    exact ⟨_, _, _, .same hn, ran_pure e⟩

/-- `gen` of an `Op`: its operands reduce to nodes of the same types, so the
constructor that puts it together again does not throw. -/
theorem Expr.opGen_run {e : Expr} (hw : e.WellTyped) (ho : e.isOp = true)
    (l c₀ : Nat) : ∃ g c k, OpGen e g c₀ c k ∧
      Ran e.gen ⟨l, c₀⟩ g ⟨l, c⟩ ⟨k, []⟩ := by
  induction e generalizing l c₀ with
  | arith op x y ihx ihy =>
      obtain ⟨hwx, hwy, hnx, hny⟩ := hw
      obtain ⟨x', c₁, k₁, hx, hrx⟩ := Expr.reduce_run (ihx hwx) l c₀
      obtain ⟨y', c₂, k₂, hy, hry⟩ := Expr.reduce_run (ihy hwy) l c₁
      have hnew : newArith op x' y' = .ok (.arith op x' y') := by
        refine typed_ok.mpr ⟨rfl, Ty.max_ne_none.mpr ?_⟩
        rw [hx.type, hy.type]
        exact ⟨hnx, hny⟩
      refine ⟨_, _, _, .arith hx hy, ?_⟩
      rw [Expr.gen]
      exact Ran.cast (Ran.bind hrx (Ran.bind hry (ran_check hnew)))
        (by simp only [Chunk.append, List.append_nil])
  | unary x ih =>
      obtain ⟨hwx, hnx⟩ := hw
      obtain ⟨x', c₁, k₁, hx, hrx⟩ := Expr.reduce_run (ih hwx) l c₀
      have hnew : newUnary x' = .ok (.unary x') := by
        refine typed_ok.mpr ⟨rfl, Ty.max_ne_none.mpr ?_⟩
        rw [hx.type]
        exact ⟨rfl, hnx⟩
      refine ⟨_, _, _, .unary hx, ?_⟩
      rw [Expr.gen]
      exact Ran.cast (Ran.bind hrx (ran_check hnew))
        (by simp only [Chunk.append, List.append_nil])
  | access a i type ih =>
      obtain ⟨i', c₁, k₁, hi, hri⟩ := Expr.reduce_run (ih hw.1) l c₀
      refine ⟨_, _, _, .access hi, ?_⟩
      rw [Expr.gen]
      exact Ran.cast (Ran.bind hri (ran_pure _))
        (by simp only [Chunk.append, List.append_nil])
  | _ => cases ho

theorem Expr.WellTyped.reduces {e : Expr} (hw : e.WellTyped) (l c₀ : Nat) :
    ∃ x c k, Reduces e x c₀ c k ∧ Ran e.reduce ⟨l, c₀⟩ x ⟨l, c⟩ ⟨k, []⟩ :=
  Expr.reduce_run (Expr.opGen_run hw) l c₀

/-! ### `jumping` -/

theorem ran_gotoIf {σ : Counters} (l : Nat) :
    Ran (if l ≠ 0 then emit (.goto l) else pure ()) σ () σ
      ⟨gotoItems l, []⟩ := by
  rw [gotoItems]
  split
  · exact ran_emit _
  · exact ran_pure ()

/-- `jumping` of an `Or` or `And` that has a label to go to. -/
theorem ran_jumpTo {x y : G Unit} {t f : Nat} {σ σ₁ σ₂ : Counters}
    {k₁ k₂ : Chunk} (hx : Ran x σ () σ₁ k₁) (hy : Ran y σ₁ () σ₂ k₂) :
    Ran (do called t f; x; y) σ () σ₂
      ⟨k₁.items ++ k₂.items, (t, f) :: k₁.calls ++ k₂.calls⟩ :=
  Ran.cast (Ran.bind (ran_called t f) (Ran.bind hx hy)) rfl

/-- `jumping` of an `Or` or `And` that makes a label and puts it behind. -/
theorem ran_jumpFall {x : Nat → G Unit} {y : G Unit} {t f l c : Nat}
    {σ₁ σ₂ : Counters} {k₁ k₂ : Chunk}
    (hx : Ran (x (l + 1)) ⟨l + 1, c⟩ () σ₁ k₁) (hy : Ran y σ₁ () σ₂ k₂) :
    Ran (do
      called t f
      let label ← newlabel
      x label
      y
      emitlabel label) ⟨l, c⟩ () σ₂
      ⟨k₁.items ++ k₂.items ++ [Item.label (l + 1)],
        (t, f) :: k₁.calls ++ k₂.calls⟩ :=
  Ran.cast (Ran.bind (ran_called t f) (Ran.bind ran_newlabel
    (Ran.bind hx (Ran.bind hy (ran_emitlabel _)))))
    (by simp [Chunk.append, List.append_assoc])

theorem Expr.jumping_or (x y : Expr) (t f : Nat) :
    (Expr.or x y).jumping t f = (do
      called t f
      let label ← if t ≠ 0 then pure t else newlabel
      x.jumping label 0
      y.jumping t f
      if t = 0 then emitlabel label) := rfl

theorem Expr.jumping_and (x y : Expr) (t f : Nat) :
    (Expr.and x y).jumping t f = (do
      called t f
      let label ← if f ≠ 0 then pure f else newlabel
      x.jumping 0 label
      y.jumping t f
      if f = 0 then emitlabel label) := rfl

theorem Expr.or_jumping_to {x y : Expr} {t : Nat} (f : Nat) (ht : t ≠ 0) :
    (Expr.or x y).jumping t f =
      (do called t f; x.jumping t 0; y.jumping t f) := by
  simp [Expr.jumping_or, ht]

theorem Expr.or_jumping_fall {x y : Expr} (f : Nat) :
    (Expr.or x y).jumping 0 f = (do
      called 0 f
      let label ← newlabel
      x.jumping label 0
      y.jumping 0 f
      emitlabel label) := by
  simp [Expr.jumping_or]

theorem Expr.and_jumping_to {x y : Expr} (t : Nat) {f : Nat} (hf : f ≠ 0) :
    (Expr.and x y).jumping t f =
      (do called t f; x.jumping 0 f; y.jumping t f) := by
  simp [Expr.jumping_and, hf]

theorem Expr.and_jumping_fall {x y : Expr} (t : Nat) :
    (Expr.and x y).jumping t 0 = (do
      called t 0
      let label ← newlabel
      x.jumping 0 label
      y.jumping t 0
      emitlabel label) := by
  simp [Expr.jumping_and]

theorem Expr.jumping_run {e : Expr} (hw : e.WellTyped)
    (hb : e.type = some .bool) (t f : Nat) (σ : Counters) :
    ∃ σ' k, Jumps e t f σ σ' k ∧ Ran (e.jumping t f) σ () σ' k := by
  induction e generalizing t f σ with
  | id i =>
      refine ⟨_, _, .id, ?_⟩
      show Ran (do called t f; emitjumps (.id i) t f) _ _ _ _
      exact Ran.cast (Ran.bind (ran_called t f) (ran_emitjumps _ t f)) rfl
  | temp n type => cases hw
  | const c =>
      cases c with
      | num v => cases hb
      | real r => cases hb
      | true =>
          refine ⟨_, _, .true, ?_⟩
          rw [Expr.jumping]
          exact Ran.cast (Ran.bind (ran_called t f) (ran_gotoIf t))
            (by simp [Chunk.append])
      | false =>
          refine ⟨_, _, .false, ?_⟩
          rw [Expr.jumping]
          exact Ran.cast (Ran.bind (ran_called t f) (ran_gotoIf f))
            (by simp [Chunk.append])
  | arith op x y =>
      obtain ⟨-, -, hnx, hny⟩ := hw
      have hn := Ty.max_numeric (Ty.max_ne_none.mpr ⟨hnx, hny⟩)
      rw [Expr.type] at hb
      rw [hb] at hn
      cases hn
  | unary x =>
      have hn := Ty.max_numeric (Ty.max_ne_none.mpr ⟨(rfl : Ty.numeric
        (some .int) = true), hw.2⟩)
      rw [Expr.type] at hb
      rw [hb] at hn
      cases hn
  | access a i type =>
      obtain ⟨l, c⟩ := σ
      obtain ⟨x, c₁, k, hx, hrx⟩ := hw.reduces l c
      refine ⟨_, _, .access hx, ?_⟩
      rw [Expr.jumping]
      exact Ran.cast (Ran.bind (ran_called t f) (Ran.bind hrx
        (ran_emitjumps _ t f))) rfl
  | or x y ihx ihy =>
      obtain ⟨hwx, hwy, hbx, hby⟩ := hw
      by_cases ht : t = 0
      · subst ht
        obtain ⟨l, c⟩ := σ
        obtain ⟨σ₁, k₁, hx, hrx⟩ := ihx hwx hbx (l + 1) 0 ⟨l + 1, c⟩
        obtain ⟨σ₂, k₂, hy, hry⟩ := ihy hwy hby 0 f σ₁
        refine ⟨_, _, .orFall hx hy, ?_⟩
        rw [Expr.or_jumping_fall]
        exact ran_jumpFall (x := fun label => x.jumping label 0) hrx hry
      · obtain ⟨σ₁, k₁, hx, hrx⟩ := ihx hwx hbx t 0 σ
        obtain ⟨σ₂, k₂, hy, hry⟩ := ihy hwy hby t f σ₁
        refine ⟨_, _, .orTo ht hx hy, ?_⟩
        rw [Expr.or_jumping_to f ht]
        exact ran_jumpTo hrx hry
  | and x y ihx ihy =>
      obtain ⟨hwx, hwy, hbx, hby⟩ := hw
      by_cases hf : f = 0
      · subst hf
        obtain ⟨l, c⟩ := σ
        obtain ⟨σ₁, k₁, hx, hrx⟩ := ihx hwx hbx 0 (l + 1) ⟨l + 1, c⟩
        obtain ⟨σ₂, k₂, hy, hry⟩ := ihy hwy hby t 0 σ₁
        refine ⟨_, _, .andFall hx hy, ?_⟩
        rw [Expr.and_jumping_fall]
        exact ran_jumpFall (x := fun label => x.jumping 0 label) hrx hry
      · obtain ⟨σ₁, k₁, hx, hrx⟩ := ihx hwx hbx 0 f σ
        obtain ⟨σ₂, k₂, hy, hry⟩ := ihy hwy hby t f σ₁
        refine ⟨_, _, .andTo hf hx hy, ?_⟩
        rw [Expr.and_jumping_to t hf]
        exact ran_jumpTo hrx hry
  | not x ih =>
      obtain ⟨σ', k, hx, hrx⟩ := ih hw.1 hw.2 f t σ
      refine ⟨_, _, .not hx, ?_⟩
      rw [Expr.jumping]
      exact Ran.cast (Ran.bind (ran_called t f) hrx) rfl
  | rel op x y =>
      obtain ⟨l, c⟩ := σ
      obtain ⟨x', c₁, k₁, hx, hrx⟩ := hw.1.reduces l c
      obtain ⟨y', c₂, k₂, hy, hry⟩ := hw.2.1.reduces l c₁
      refine ⟨_, _, .rel hx hy, ?_⟩
      rw [Expr.jumping]
      exact Ran.cast (Ran.bind (ran_called t f) (Ran.bind hrx
        (Ran.bind hry (ran_emitjumps _ t f))))
        (by simp [Chunk.append, List.append_assoc])

/-! ### `gen` of an expression -/

theorem Expr.WellTyped.logical_type {e : Expr} (hw : e.WellTyped)
    (hl : e.isLogical = true) : e.type = some .bool := by
  cases e with
  | or x y => exact logicalCheck_bool (logicalCheck_ne_none.mpr hw.2.2)
  | and x y => exact logicalCheck_bool (logicalCheck_ne_none.mpr hw.2.2)
  | not x => exact logicalCheck_bool (logicalCheck_ne_none.mpr ⟨hw.2, hw.2⟩)
  | rel op x y => exact relCheck_bool hw.2.2
  | _ => cases hl

theorem Expr.gen_logical {e : Expr} (hl : e.isLogical = true) :
    e.gen = logicalGen e.type e := by
  cases e with
  | or x y => rfl
  | and x y => rfl
  | not x => rfl
  | rel op x y => rfl
  | _ => cases hl

theorem Expr.gen_same {e : Expr} (ho : e.isOp = false)
    (hl : e.isLogical = false) : e.gen = pure e := by
  cases e with
  | id i => rfl
  | temp n type => rfl
  | const c => rfl
  | arith op x y => cases ho
  | unary x => cases ho
  | access a i type => cases ho
  | _ => cases hl

theorem Expr.gen_run {e : Expr} (hw : e.WellTyped) (σ : Counters) :
    ∃ g σ' k, Gens e g σ σ' k ∧ Ran e.gen σ g σ' k := by
  obtain ⟨l, c⟩ := σ
  by_cases ho : e.isOp = true
  · obtain ⟨g, c', k, hg, hrun⟩ := Expr.opGen_run hw ho l c
    exact ⟨_, _, _, .op hg, hrun⟩
  · have ho' : e.isOp = false := by simpa using ho
    by_cases hl : e.isLogical = true
    · obtain ⟨σ', k, hj, hrun⟩ := Expr.jumping_run hw (hw.logical_type hl)
        0 (l + 1) ⟨l + 2, c + 1⟩
      refine ⟨_, _, _, .logical hl hj, ?_⟩
      rw [Expr.gen_logical hl, logicalGen]
      exact Ran.cast (Ran.bind ran_newlabel (Ran.bind ran_newlabel
        (Ran.bind ran_newTemp (Ran.bind hrun (Ran.bind (ran_emit _)
        (Ran.bind (ran_emit _) (Ran.bind (ran_emitlabel _)
        (Ran.bind (ran_emit _) (Ran.bind (ran_emitlabel _)
        (ran_pure _)))))))))) (by simp [Chunk.append, logicalItems])
    · have hl' : e.isLogical = false := by simpa using hl
      rw [Expr.gen_same ho' hl']
      exact ⟨_, _, _, .same ho' hl', ran_pure e⟩

/-! ### `gen` of a statement -/

/-- A method that may set the fields of loop nodes, those from `lo` on, has
run from `s` to `s'`. -/
structure RanIn {α : Type} (lo : Nat) (m : G α) (s : GState) (x : α)
    (s' : GState) (k : Chunk) : Prop where
  run : m s = .ok (x, s')
  out : s'.out = s.out ++ k.items
  calls : s'.calls = s.calls ++ k.calls
  loops : ∀ l < lo, s'.loops l = s.loops l

theorem Ran.ranIn {α : Type} {m : G α} {x : α} {σ : Counters} {k : Chunk}
    {s : GState} {lo : Nat} (h : Ran m s.counters x σ k) :
    RanIn lo m s x (s.add σ k) k :=
  ⟨h s rfl, rfl, rfl, fun _ _ => rfl⟩

theorem RanIn.bind {α β : Type} {lo : Nat} {m : G α} {f : α → G β} {x : α}
    {y : β} {s s₁ s₂ : GState} {k₁ k₂ : Chunk} (h : RanIn lo m s x s₁ k₁)
    (hf : RanIn lo (f x) s₁ y s₂ k₂) :
    RanIn lo (m >>= f) s y s₂ (k₁.append k₂) where
  run := by rw [bind_run h.run, hf.run]
  out := by rw [hf.out, h.out, List.append_assoc, Chunk.append]
  calls := by rw [hf.calls, h.calls, List.append_assoc, Chunk.append]
  loops l hl := (hf.loops l hl).trans (h.loops l hl)

theorem RanIn.cast {α : Type} {lo : Nat} {m : G α} {x : α} {s s' : GState}
    {k k' : Chunk} (h : RanIn lo m s x s' k) (hk : k = k') :
    RanIn lo m s x s' k' := hk ▸ h

theorem RanIn.mono {α : Type} {lo lo' : Nat} {m : G α} {x : α}
    {s s' : GState} {k : Chunk} (hle : lo ≤ lo') (h : RanIn lo' m s x s' k) :
    RanIn lo m s x s' k :=
  ⟨h.run, h.out, h.calls, fun l hl => h.loops l (Nat.lt_of_lt_of_le hl hle)⟩

/-- The entry of a loop node: its fields are set, those of the loops around
it stay. -/
theorem ranIn_setLoop {lo l : Nat} (b a : Nat) (s : GState) (hle : lo ≤ l) :
    ∃ s₁, RanIn lo (setLoop l b a) s () s₁ ⟨[], []⟩ ∧
      s₁.loops l = (b, a) ∧ s₁.counters = s.counters := by
  refine ⟨_, ⟨rfl, (List.append_nil _).symm, (List.append_nil _).symm, ?_⟩,
    if_pos rfl, rfl⟩
  intro j hj
  exact if_neg (Nat.ne_of_lt (Nat.lt_of_lt_of_le hj hle))

/-- The innermost loop around is below `lo` and has the labels `loop`. -/
def Encloses (cur : Option Nat) (lo : Nat) (loop : Nat × Nat) (s : GState) :
    Prop :=
  ∀ l, cur = some l → l < lo ∧ s.loops l = loop

theorem Encloses.after {α : Type} {cur : Option Nat} {lo : Nat}
    {loop : Nat × Nat} {m : G α} {x : α} {s s' : GState} {k : Chunk}
    (h : Encloses cur lo loop s) (hrun : RanIn lo m s x s' k) :
    Encloses cur lo loop s' := by
  intro l hc
  obtain ⟨hl, he⟩ := h l hc
  exact ⟨hl, (hrun.loops l hl).trans he⟩

theorem Encloses.inside {l : Nat} {loop : Nat × Nat} {s : GState}
    (h : s.loops l = loop) : Encloses (some l) (l + 1) loop s := by
  intro j hj
  cases hj
  exact ⟨Nat.lt_succ_self l, h⟩

/-- The generator runs on a well-typed tree, and makes the code of its
derivation. -/
theorem Stmt.gen_run {s : Stmt} (hw : s.WellTyped) {cur : Option Nat}
    {lo : Nat} (hin : s.LoopsIn cur lo) (b a : Nat) {loop : Nat × Nat}
    {st : GState} (henc : Encloses cur lo loop st) :
    ∃ st' k, StmtCode s b a loop st.counters st'.counters k ∧
      RanIn lo (s.gen b a) st () st' k := by
  induction s generalizing cur lo b a loop st with
  | null =>
      rw [Stmt.gen]
      exact ⟨st.add st.counters _, _, .null, (ran_pure ()).ranIn⟩
  | set i x =>
      obtain ⟨g, σ, k, hg, hrun⟩ := Expr.gen_run hw.1 st.counters
      rw [Stmt.gen]
      refine ⟨_, _, .set hg, RanIn.cast (RanIn.bind hrun.ranIn
        (ran_emit _).ranIn) ?_⟩
      simp [Chunk.append]
  | setElem i x y =>
      obtain ⟨hwx, -, hwy, -⟩ := hw
      obtain ⟨x', c₁, k₁, hx, hrx⟩ := hwx.reduces st.labels st.count
      obtain ⟨y', c₂, k₂, hy, hry⟩ := hwy.reduces st.labels c₁
      rw [Stmt.gen]
      refine ⟨st.add ⟨st.labels, c₂⟩ _, _, .setElem hx hy, Ran.ranIn
        (Ran.cast (Ran.bind hrx (Ran.bind hry (ran_emit _))) ?_)⟩
      simp [Chunk.append]
  | «if» x s ih =>
      obtain ⟨hwx, hbx, hws⟩ := hw
      obtain ⟨σ₁, k₁, hx, hrx⟩ := Expr.jumping_run hwx hbx 0 a
        ⟨st.labels + 1, st.count⟩
      have hhead : RanIn lo (do
          let label ← newlabel
          x.jumping 0 a
          emitlabel label
          pure label) st _ _ _ :=
        Ran.ranIn (Ran.bind ran_newlabel (Ran.bind hrx
          (Ran.bind (ran_emitlabel _) (ran_pure _))))
      obtain ⟨st', k₂, hs, hrs⟩ := ih hws hin (st.labels + 1) a
        (henc.after hhead)
      refine ⟨st', _, .if hx hs, ?_⟩
      have hrun := RanIn.bind (f := fun label => s.gen label a) hhead hrs
      simp only [bind_assoc, pure_bind] at hrun
      rw [Stmt.gen]
      exact RanIn.cast hrun (by simp [Chunk.append])
  | «else» x s1 s2 ih1 ih2 =>
      obtain ⟨hwx, hbx, hws1, hws2⟩ := hw
      obtain ⟨σ₁, k₁, hx, hrx⟩ := Expr.jumping_run hwx hbx 0 (st.labels + 2)
        ⟨st.labels + 2, st.count⟩
      have hhead : RanIn lo (do
          let label1 ← newlabel
          let label2 ← newlabel
          x.jumping 0 label2
          emitlabel label1
          pure (label1, label2)) st _ _ _ :=
        Ran.ranIn (Ran.bind ran_newlabel (Ran.bind ran_newlabel (Ran.bind hrx
          (Ran.bind (ran_emitlabel _) (ran_pure _)))))
      obtain ⟨st₁, k₂, hs1, hrs1⟩ := ih1 hws1 hin.1 (st.labels + 1) a
        (henc.after hhead)
      have hgoto : RanIn lo (emit (.goto a)) st₁ _ _ _ :=
        Ran.ranIn (ran_emit _)
      have hlab : RanIn lo (emitlabel (st.labels + 2))
          (st₁.add st₁.counters ⟨[.instr (.goto a)], []⟩) _ _ _ :=
        Ran.ranIn (ran_emitlabel _)
      obtain ⟨st', k₃, hs2, hrs2⟩ := ih2 hws2 hin.2 (st.labels + 2) a
        ((((henc.after hhead).after hrs1).after hgoto).after hlab)
      refine ⟨st', _, .else hx hs1 hs2, ?_⟩
      have hrun := RanIn.bind (f := fun p : Nat × Nat => do
        s1.gen p.1 a
        emit (.goto a)
        emitlabel p.2
        s2.gen p.2 a) hhead (RanIn.bind hrs1 (RanIn.bind hgoto
          (RanIn.bind hlab hrs2)))
      simp only [bind_assoc, pure_bind] at hrun
      rw [Stmt.gen]
      exact RanIn.cast hrun (by simp [Chunk.append])
  | «while» l x s ih =>
      obtain ⟨hwx, hbx, hws⟩ := hw
      obtain ⟨st₁, hset, hloop, hcount⟩ := ranIn_setLoop b a st hin.1
      obtain ⟨⟨n, c⟩, k₁, hx, hrx⟩ := Expr.jumping_run hwx hbx 0 a st.counters
      rw [← hcount] at hrx
      have hhead : RanIn (l + 1) (do
          x.jumping 0 a
          let label ← newlabel
          emitlabel label
          pure label) st₁ _ _ _ :=
        Ran.ranIn (Ran.bind hrx (Ran.bind ran_newlabel
          (Ran.bind (ran_emitlabel _) (ran_pure _))))
      obtain ⟨st', k₂, hs, hrs⟩ := ih hws hin.2 (n + 1) b
        ((Encloses.inside hloop).after hhead)
      refine ⟨st'.add st'.counters ⟨[.instr (.goto b)], []⟩, _,
        .while hx hs, ?_⟩
      have hle : lo ≤ l + 1 := Nat.le_succ_of_le hin.1
      have hrun := RanIn.bind (f := fun label => do
        s.gen label b
        emit (.goto b)) (hhead.mono hle) (RanIn.bind (hrs.mono hle)
          (ran_emit _).ranIn)
      simp only [bind_assoc, pure_bind] at hrun
      rw [Stmt.gen]
      exact RanIn.cast (RanIn.bind hset hrun) (by simp [Chunk.append])
  | «do» l s x ih =>
      obtain ⟨hwx, hbx, hws⟩ := hw
      obtain ⟨st₁, hset, hloop, hcount⟩ := ranIn_setLoop b a st hin.1
      have hlab : RanIn (l + 1) newlabel st₁ _ _ _ := Ran.ranIn ran_newlabel
      obtain ⟨st₂, k₁, hs, hrs⟩ := ih hws hin.2 b (st₁.labels + 1)
        ((Encloses.inside hloop).after hlab)
      obtain ⟨σ₂, k₂, hx, hrx⟩ := Expr.jumping_run hwx hbx b 0 st₂.counters
      have hle : lo ≤ l + 1 := Nat.le_succ_of_le hin.1
      rw [← hcount]
      refine ⟨st₂.add σ₂ (.append ⟨[.label (st₁.labels + 1)], []⟩ k₂), _,
        .do hs hx, ?_⟩
      rw [Stmt.gen]
      exact RanIn.cast (RanIn.bind hset (RanIn.bind (hlab.mono hle)
        (RanIn.bind (hrs.mono hle) (Ran.ranIn (Ran.bind (ran_emitlabel _)
          hrx))))) (by simp [Chunk.append])
  | «break» l =>
      obtain ⟨-, hloop⟩ := henc l hin
      have hrun : RanIn lo (emit (.goto (st.loops l).2)) st () _ _ :=
        Ran.ranIn (ran_emit _)
      rw [← hloop]
      exact ⟨st.add st.counters _, _, .break, hrun.run, hrun.out, hrun.calls,
        hrun.loops⟩
  | «continue» l =>
      obtain ⟨-, hloop⟩ := henc l hin
      have hrun : RanIn lo (emit (.goto (st.loops l).1)) st () _ _ :=
        Ran.ranIn (ran_emit _)
      rw [← hloop]
      exact ⟨st.add st.counters _, _, .continue, hrun.run, hrun.out, hrun.calls,
        hrun.loops⟩
  | seq s1 s2 ih1 ih2 =>
      rw [Stmt.gen]
      by_cases hn1 : s1 = .null
      · rw [if_pos hn1]
        subst hn1
        obtain ⟨st', k, hs, hrs⟩ := ih2 hw.2 hin.2 b a henc
        exact ⟨st', k, .seqRight hs, hrs⟩
      · rw [if_neg hn1]
        by_cases hn2 : s2 = .null
        · rw [if_pos hn2]
          subst hn2
          obtain ⟨st', k, hs, hrs⟩ := ih1 hw.1 hin.1 b a henc
          exact ⟨st', k, .seqLeft hn1 hs, hrs⟩
        · rw [if_neg hn2]
          have hlab : RanIn lo newlabel st _ _ _ := Ran.ranIn ran_newlabel
          obtain ⟨st₁, k₁, hs1, hrs1⟩ := ih1 hw.1 hin.1 b (st.labels + 1)
            (henc.after hlab)
          have hmid : RanIn lo (emitlabel (st.labels + 1)) st₁ _ _ _ :=
            Ran.ranIn (ran_emitlabel _)
          obtain ⟨st', k₂, hs2, hrs2⟩ := ih2 hw.2 hin.2 (st.labels + 1) a
            (((henc.after hlab).after hrs1).after hmid)
          refine ⟨st', _, .seq hn1 hn2 hs1 hs2, ?_⟩
          exact RanIn.cast (RanIn.bind hlab (RanIn.bind hrs1
            (RanIn.bind hmid hrs2))) (by simp [Chunk.append])

/-! ## Accepted programs -/

/-- The code of a program: the label `begin`, the code of the block and the
label `after`. -/
structure ProgramCode (s : Stmt) (g : GState) (k : Chunk) : Prop where
  code : StmtCode s 1 2 (0, 0) ⟨2, 0⟩ g.counters k
  out : g.out = Item.label 1 :: k.items ++ [Item.label 2]
  calls : g.calls = k.calls

theorem genProgram_run {s : Stmt} (hw : s.WellTyped)
    (hin : s.LoopsIn none 0) : ∃ g k, ProgramCode s g k ∧
      genProgram s GState.init = .ok ((1, 2), g) := by
  have hhead : RanIn 0 (do
      let begin ← newlabel
      let after ← newlabel
      emitlabel begin
      pure (begin, after)) GState.init _ _ _ :=
    Ran.ranIn (Ran.bind ran_newlabel (Ran.bind ran_newlabel
      (Ran.bind (ran_emitlabel _) (ran_pure _))))
  have henc : Encloses none 0 (0, 0)
      (GState.init.add ⟨2, 0⟩ ⟨[.label 1], []⟩) := fun l hl => nomatch hl
  obtain ⟨st, k, hs, hrs⟩ := Stmt.gen_run hw hin 1 2 henc
  have hrun := RanIn.bind (f := fun p : Nat × Nat => do
    s.gen p.1 p.2
    emitlabel p.2
    pure p) hhead (RanIn.bind hrs (Ran.ranIn (Ran.bind (ran_emitlabel _)
      (ran_pure _))))
  simp only [bind_assoc, pure_bind] at hrun
  refine ⟨_, k, ⟨?_, ?_, ?_⟩, hrun.run⟩
  · exact hs
  · rw [hrun.out]
    simp [Chunk.append, GState.init]
  · rw [hrun.calls]
    simp [Chunk.append, GState.init]

theorem program_code {toks : List Token} {o : Output}
    (h : program toks = .ok o) :
    o.begin = 1 ∧ o.after = 2 ∧ ∃ k, ProgramCode o.stmt o.gen k := by
  obtain ⟨hw, hin, hgen⟩ := program_built h
  obtain ⟨g, k, hk, hrun⟩ := genProgram_run hw hin
  obtain ⟨hlabels, hg⟩ := Prod.mk.inj (Except.ok.inj (hrun.symm.trans hgen))
  obtain ⟨hbegin, hafter⟩ := Prod.mk.inj hlabels
  exact ⟨hbegin.symm, hafter.symm, k, hg ▸ hk⟩

end LearningLinux.FrontEnd
