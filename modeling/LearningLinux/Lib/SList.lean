import Mathlib.Data.List.Nodup

/-!
# Singly linked lists over a link function

`Chain nx h l` says that following `nx` from `h` visits the nodes of `l`, in
this order, and ends. There is at most one such list for a given start, so no
node is visited twice; the two changes a queue makes, taking the first node
off and linking a node behind the last one, are `Chain.tail` and
`Chain.snoc`.
-/

namespace LearningLinux.Lib

variable {α : Type*} {nx nx' : α → Option α} {h : Option α} {l l' : List α}
  {a b c : α}

def Chain (nx : α → Option α) : Option α → List α → Prop
  | h, [] => h = none
  | h, a :: l => h = some a ∧ Chain nx (nx a) l

theorem chain_nil : Chain nx h [] ↔ h = none := Iff.rfl

theorem chain_cons : Chain nx h (a :: l) ↔ h = some a ∧ Chain nx (nx a) l :=
  Iff.rfl

theorem Chain.tail (hc : Chain nx (some a) l) :
    ∃ l', l = a :: l' ∧ Chain nx (nx a) l' := by
  cases l with
  | nil => cases hc
  | cons b l =>
      obtain ⟨hb, hc⟩ := chain_cons.mp hc
      cases hb
      exact ⟨l, rfl, hc⟩

theorem Chain.eq_nil (hc : Chain nx none l) : l = [] := by
  cases l with
  | nil => rfl
  | cons b l => cases hc.1

theorem Chain.congr (hc : Chain nx h l) (hnx : ∀ x ∈ l, nx' x = nx x) :
    Chain nx' h l := by
  induction l generalizing h with
  | nil => exact hc
  | cons a l ih =>
      obtain ⟨ha, hc⟩ := chain_cons.mp hc
      refine chain_cons.mpr ⟨ha, ?_⟩
      rw [hnx a List.mem_cons_self]
      exact ih hc fun x hx => hnx x (List.mem_cons_of_mem a hx)

theorem Chain.unique (hc : Chain nx h l) (hc' : Chain nx h l') : l = l' := by
  induction l generalizing h l' with
  | nil =>
      rw [chain_nil.mp hc] at hc'
      exact hc'.eq_nil.symm
  | cons a l ih =>
      obtain ⟨ha, hc⟩ := chain_cons.mp hc
      rw [ha] at hc'
      obtain ⟨l'', rfl, hrest⟩ := hc'.tail
      rw [ih hc hrest]

theorem Chain.suffix {xs ys : List α} (hc : Chain nx h (xs ++ a :: ys)) :
    Chain nx (nx a) ys := by
  induction xs generalizing h with
  | nil => exact hc.2
  | cons x xs ih => exact ih hc.2

theorem Chain.nodup (hc : Chain nx h l) : l.Nodup := by
  induction l generalizing h with
  | nil => exact List.nodup_nil
  | cons a l ih =>
      obtain ⟨-, hc⟩ := chain_cons.mp hc
      refine List.nodup_cons.mpr ⟨?_, ih hc⟩
      intro ha
      obtain ⟨xs, ys, rfl⟩ := List.append_of_mem ha
      have hlen := congrArg List.length (hc.unique hc.suffix)
      rw [List.length_append, List.length_cons] at hlen
      omega

/-- Every node but the last one has a next node, which is visited too. -/
theorem Chain.mem_next (hc : Chain nx h l) (ha : a ∈ l) (hb : nx a = some b) :
    b ∈ l := by
  obtain ⟨xs, ys, rfl⟩ := List.append_of_mem ha
  have hsuffix := hc.suffix
  rw [hb] at hsuffix
  obtain ⟨zs, rfl, -⟩ := hsuffix.tail
  simp

/-- Linking `b` behind the last node. -/
theorem Chain.snoc (hc : Chain nx h l) (ha : a ∈ l) (hlast : nx a = none)
    (hlink : nx' a = some b) (hend : nx' b = none)
    (hnx : ∀ x ∈ l, x ≠ a → nx' x = nx x) : Chain nx' h (l ++ [b]) := by
  induction l generalizing h with
  | nil => cases ha
  | cons c l ih =>
      obtain ⟨hh, hc⟩ := chain_cons.mp hc
      refine chain_cons.mpr ⟨hh, ?_⟩
      by_cases hca : c = a
      · rw [hca, hlast] at hc
        rw [hca, hlink, hc.eq_nil]
        exact ⟨rfl, hend⟩
      · rw [hnx c List.mem_cons_self hca]
        refine ih hc ?_ fun x hx => hnx x (List.mem_cons_of_mem c hx)
        exact (List.mem_cons.mp ha).resolve_left (Ne.symm hca)

end LearningLinux.Lib
