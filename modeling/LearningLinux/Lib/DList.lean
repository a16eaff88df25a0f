import Mathlib.Data.List.Basic

/-!
# Doubly linked lists over two link functions

A linked structure is seen here through two functions only, `nx` and `pv`,
which read the link fields of a node wherever they are stored. `Seg nx pv p l
n` says that the nodes of `l`, in this order, form a segment: every node's
`pv` is the node before it and the first one's is `p`, every node's `nx` is
the node after it and the last one's is `n`.

Segments are cut and glued with `seg_append`, and the two ends are redirected
with `setPrev` and `setNext`; unlinking a node and linking one in are both a
cut, two redirections and a glue. The new links are described by what they
are on the nodes concerned, so the rules do not care in which order a program
writes the fields.
-/

namespace LearningLinux.Lib

variable {α : Type*} {nx pv nx' pv' : α → Option α}

def Seg (nx pv : α → Option α) : Option α → List α → Option α → Prop
  | _, [], _ => True
  | p, a :: rest, n =>
      pv a = p ∧ nx a = rest.head?.or n ∧ Seg nx pv (some a) rest n

@[simp] theorem seg_nil {p n : Option α} : Seg nx pv p [] n := trivial

theorem seg_cons {p n : Option α} {a : α} {l : List α} :
    Seg nx pv p (a :: l) n ↔
      pv a = p ∧ nx a = l.head?.or n ∧ Seg nx pv (some a) l n := Iff.rfl

theorem seg_append {ys : List α} {n : Option α} :
    ∀ {xs : List α} {p : Option α},
      Seg nx pv p (xs ++ ys) n ↔
        Seg nx pv p xs (ys.head?.or n) ∧ Seg nx pv (xs.getLast?.or p) ys n := by
  intro xs
  induction xs with
  | nil => intro p; simp
  | cons a xs ih =>
      intro p
      rw [List.cons_append, seg_cons, seg_cons, ih, List.head?_append,
        Option.or_assoc]
      have hlast : (a :: xs).getLast?.or p = xs.getLast?.or (some a) := by
        rw [List.getLast?_cons]
        cases xs.getLast? <;> rfl
      rw [hlast]
      simp only [and_assoc]

/-- A segment depends on the links of its own nodes only. -/
theorem Seg.congr : ∀ {l : List α} {p n : Option α}, Seg nx pv p l n →
    (∀ x ∈ l, nx' x = nx x) → (∀ x ∈ l, pv' x = pv x) → Seg nx' pv' p l n := by
  intro l
  induction l with
  | nil => intro p n _ _ _; exact trivial
  | cons a l ih =>
      intro p n h hn hp
      obtain ⟨h₁, h₂, h₃⟩ := seg_cons.mp h
      refine seg_cons.mpr ⟨?_, ?_, ?_⟩
      · rw [hp a (by simp), h₁]
      · rw [hn a (by simp), h₂]
      · exact ih h₃ (fun x hx => hn x (by simp [hx]))
          (fun x hx => hp x (by simp [hx]))

/-- Redirecting the first node's backward link. -/
theorem Seg.setPrev {b : α} {post : List α} {p p' n : Option α}
    (h : Seg nx pv p (b :: post) n) (hb : pv' b = p')
    (hn : ∀ x ∈ b :: post, nx' x = nx x) (hp : ∀ x ∈ post, pv' x = pv x) :
    Seg nx' pv' p' (b :: post) n := by
  obtain ⟨-, h₂, h₃⟩ := seg_cons.mp h
  refine seg_cons.mpr ⟨hb, ?_, ?_⟩
  · rw [hn b (by simp), h₂]
  · exact h₃.congr (fun x hx => hn x (by simp [hx])) hp

/-- Redirecting the last node's forward link. -/
theorem Seg.setNext {a : α} {pre : List α} {p n n' : Option α}
    (h : Seg nx pv p (pre ++ [a]) n) (ha : nx' a = n')
    (hn : ∀ x ∈ pre, nx' x = nx x) (hp : ∀ x ∈ pre ++ [a], pv' x = pv x) :
    Seg nx' pv' p (pre ++ [a]) n' := by
  obtain ⟨h₁, h₂⟩ := seg_append.mp h
  obtain ⟨h₃, -, -⟩ := seg_cons.mp h₂
  refine seg_append.mpr ⟨h₁.congr hn (fun x hx => hp x (by simp [hx])), ?_⟩
  refine seg_cons.mpr ⟨?_, ?_, trivial⟩
  · rw [hp a (by simp), h₃]
  · rw [ha]; rfl

/-- The links around one inner node. -/
theorem Seg.at {pre post : List α} {t : α} {p n : Option α}
    (h : Seg nx pv p (pre ++ t :: post) n) :
    pv t = pre.getLast?.or p ∧ nx t = post.head?.or n := by
  obtain ⟨-, h₂⟩ := seg_append.mp h
  exact ⟨h₂.1, h₂.2.1⟩

/-- Unlinking an inner node `t`: its neighbours are redirected past it. -/
theorem Seg.remove {pre post : List α} {a t b : α} {p n : Option α}
    (h : Seg nx pv p (pre ++ a :: t :: b :: post) n)
    (ha : nx' a = some b) (hb : pv' b = some a)
    (hn : ∀ x ∈ pre ++ b :: post, nx' x = nx x)
    (hp : ∀ x ∈ pre ++ a :: post, pv' x = pv x) :
    Seg nx' pv' p (pre ++ a :: b :: post) n := by
  have hpa : ∀ x ∈ pre ++ [a], pv' x = pv x := by
    intro x hx
    rcases List.mem_append.mp hx with hx | hx
    · exact hp x (by simp [hx])
    · exact hp x (by simp [List.mem_singleton.mp hx])
  rw [show pre ++ a :: t :: b :: post = (pre ++ [a]) ++ (t :: b :: post) by
    simp] at h
  rw [show pre ++ a :: b :: post = (pre ++ [a]) ++ b :: post by simp]
  obtain ⟨h₁, h₂⟩ := seg_append.mp h
  refine seg_append.mpr ⟨h₁.setNext ha (fun x hx => hn x (by simp [hx])) hpa, ?_⟩
  refine (seg_cons.mp h₂).2.2.setPrev ?_ (fun x hx => hn x ?_)
    (fun x hx => hp x (by simp [hx]))
  · rw [hb]; simp
  · rcases List.mem_cons.mp hx with hx | hx <;> simp [hx]

/-- Linking a new node `t` in between two neighbours. -/
theorem Seg.insert {pre post : List α} {a t b : α} {p n : Option α}
    (h : Seg nx pv p (pre ++ a :: b :: post) n)
    (ha : nx' a = some t) (hta : pv' t = some a) (htb : nx' t = some b)
    (hb : pv' b = some t)
    (hn : ∀ x ∈ pre ++ b :: post, nx' x = nx x)
    (hp : ∀ x ∈ pre ++ a :: post, pv' x = pv x) :
    Seg nx' pv' p (pre ++ a :: t :: b :: post) n := by
  have hpa : ∀ x ∈ pre ++ [a], pv' x = pv x := by
    intro x hx
    rcases List.mem_append.mp hx with hx | hx
    · exact hp x (by simp [hx])
    · exact hp x (by simp [List.mem_singleton.mp hx])
  rw [show pre ++ a :: b :: post = (pre ++ [a]) ++ b :: post by simp] at h
  rw [show pre ++ a :: t :: b :: post = (pre ++ [a]) ++ (t :: b :: post) by
    simp]
  obtain ⟨h₁, h₂⟩ := seg_append.mp h
  refine seg_append.mpr ⟨h₁.setNext ha (fun x hx => hn x (by simp [hx])) hpa, ?_⟩
  refine seg_cons.mpr ⟨by rw [hta]; simp, by rw [htb]; rfl, ?_⟩
  refine h₂.setPrev hb (fun x hx => hn x ?_) (fun x hx => hp x (by simp [hx]))
  rcases List.mem_cons.mp hx with hx | hx <;> simp [hx]

end LearningLinux.Lib
