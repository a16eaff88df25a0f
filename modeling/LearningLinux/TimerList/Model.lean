import Mathlib.Logic.Function.Basic

/-!
# `sort_timer_lst`, as `timer_list.h` computes it

The timers live on the heap and the list reaches them through raw pointers.
A pointer is an `Option Nat`, `none` being `NULL`, and the heap maps an
address to the timer object there. Reading or writing a field through a null
pointer, or through one whose object has been deleted, is undefined in C++;
here the operation answers `none`. Nothing else makes an operation fail.

`numObjects` counts the allocated timers. It is only there to bound the two
`while` loops: `tick` deletes an object in every iteration, and the loop of
the private `add_timer` moves at most once (`findTmp_fuel`), so the bounds
are never what ends a loop.

The callback a timer carries is called with its client data and closes a
socket; what `tick` answers beside the new list is which timers it was
called for, in order.
-/

namespace LearningLinux.TimerList

/-- The fields of `util_timer` the list reads and writes; the default
constructor leaves both links null. -/
structure UtilTimer where
  expire : Int
  prev : Option Nat
  next : Option Nat
  deriving DecidableEq, Repr

structure SortTimerLst where
  heap : Nat → Option UtilTimer
  numObjects : Nat
  head : Option Nat
  tail : Option Nat

/-- `sort_timer_lst()`, in a program that has no timers yet. -/
def SortTimerLst.empty : SortTimerLst where
  heap := fun _ => none
  numObjects := 0
  head := none
  tail := none

/-- `*p`. -/
def SortTimerLst.deref (s : SortTimerLst) (p : Option Nat) :
    Option UtilTimer := p.bind s.heap

/-- `p->next = v`. -/
def SortTimerLst.setNext (s : SortTimerLst) (p v : Option Nat) :
    Option SortTimerLst := do
  let a ← p
  let t ← s.heap a
  some { s with heap := Function.update s.heap a (some { t with next := v }) }

/-- `p->prev = v`. -/
def SortTimerLst.setPrev (s : SortTimerLst) (p v : Option Nat) :
    Option SortTimerLst := do
  let a ← p
  let t ← s.heap a
  some { s with heap := Function.update s.heap a (some { t with prev := v }) }

/-- `delete p`. -/
def SortTimerLst.delete (s : SortTimerLst) (p : Option Nat) :
    Option SortTimerLst := do
  let a ← p
  let _ ← s.heap a
  some { s with
    heap := Function.update s.heap a none
    numObjects := s.numObjects - 1 }

/-- `new util_timer` at address `a`, with the expiration time its user gives
it right away. -/
def SortTimerLst.newTimer (s : SortTimerLst) (a : Nat) (expire : Int) :
    SortTimerLst :=
  { s with
    heap := Function.update s.heap a (some ⟨expire, none, none⟩)
    numObjects := s.numObjects + 1 }

/-- `timer->expire = e`, as the server does before `adjust_timer`. -/
def SortTimerLst.setExpire (s : SortTimerLst) (a : Nat) (e : Int) :
    Option SortTimerLst := do
  let t ← s.heap a
  some { s with heap := Function.update s.heap a (some { t with expire := e }) }

/-- The loop of the private `add_timer`: where it leaves `tmp`. -/
def findTmp (s : SortTimerLst) (timer : Option Nat) :
    Nat → Option Nat → Option (Option Nat)
  | 0, tmp => some tmp
  | fuel + 1, tmp =>
      if tmp = s.tail then some tmp
      else do
        let t ← s.deref tmp
        let u ← s.deref timer
        if t.expire < u.expire then
          let n ← s.deref t.next
          if u.expire ≤ n.expire then findTmp s timer fuel t.next
          else some tmp
        else some tmp

/-- The private `add_timer(timer, header)`. It never reads `header`: the
search starts at `head`. -/
def addTimerFrom (s : SortTimerLst) (timer _header : Option Nat) :
    Option SortTimerLst := do
  let tmp ← findTmp s timer 2 s.head
  let t ← s.deref tmp
  let s₁ ← s.setNext timer t.next
  let s₂ ← s₁.setPrev timer tmp
  let s₃ ← s₂.setNext tmp timer
  let u ← s₃.deref timer
  s₃.setPrev u.next timer

/-- The public `add_timer`. -/
def addTimer (s : SortTimerLst) (timer : Option Nat) : Option SortTimerLst :=
  if timer = none then some s
  else if s.head = none then
    some { s with head := timer, tail := timer }
  else do
    let t ← s.deref timer
    let h ← s.deref s.head
    if t.expire < h.expire then
      let s₁ ← s.setNext timer s.head
      let s₂ ← s₁.setPrev s₁.head timer
      some { s₂ with head := timer }
    else addTimerFrom s timer s.head

def adjustTimer (s : SortTimerLst) (timer : Option Nat) :
    Option SortTimerLst :=
  if timer = none then some s
  else do
    let t ← s.deref timer
    let tmp := t.next
    if tmp = none then some s
    else do
      let n ← s.deref tmp
      if t.expire < n.expire then some s
      else if timer = s.head then do
        let h ← s.deref s.head
        let s₁ := { s with head := h.next }
        let s₂ ← s₁.setPrev s₁.head none
        let s₃ ← s₂.setNext timer none
        addTimerFrom s₃ timer s₃.head
      else do
        let s₁ ← s.setNext t.prev t.next
        let u ← s₁.deref timer
        let s₂ ← s₁.setPrev u.next u.prev
        let v ← s₂.deref timer
        addTimerFrom s₂ timer v.next

def delTimer (s : SortTimerLst) (timer : Option Nat) : Option SortTimerLst :=
  if timer = none then some s
  else if timer = s.head ∧ timer = s.tail then do
    let s₁ ← s.delete timer
    some { s₁ with head := none, tail := none }
  else if timer = s.head then do
    let h ← s.deref s.head
    let s₁ := { s with head := h.next }
    let s₂ ← s₁.setPrev s₁.head none
    s₂.delete timer
  else if timer = s.tail then do
    let t ← s.deref s.tail
    let s₁ := { s with tail := t.prev }
    let s₂ ← s₁.setNext s₁.tail none
    s₂.delete timer
  else do
    let t ← s.deref timer
    let s₁ ← s.setNext t.prev t.next
    let u ← s₁.deref timer
    let s₂ ← s₁.setPrev u.next u.prev
    s₂.delete timer

/-- The loop of `tick`, with the timers whose callback it calls. -/
def tickLoop (cur : Int) : Nat → SortTimerLst → Option Nat →
    Option (SortTimerLst × List Nat)
  | 0, s, _ => some (s, [])
  | fuel + 1, s, tmp =>
      match tmp with
      | none => some (s, [])
      | some a => do
          let t ← s.deref tmp
          if cur < t.expire then some (s, [])
          else do
            let s₁ := { s with head := t.next }
            let s₂ ← if s₁.head = none then some s₁
              else s₁.setPrev s₁.head none
            let s₃ ← s₂.delete tmp
            let (s₄, fired) ← tickLoop cur fuel s₃ s₃.head
            some (s₄, a :: fired)

/-- `tick`, at the time `cur` that `time(NULL)` answers. -/
def tick (cur : Int) (s : SortTimerLst) : Option (SortTimerLst × List Nat) :=
  if s.head = none then some (s, [])
  else tickLoop cur (s.numObjects + 1) s s.head

/-- The loop stops at a node that expires no earlier than the timer. -/
theorem findTmp_stop {s : SortTimerLst} {timer tmp : Option Nat}
    {t u : UtilTimer} (ht : s.deref tmp = some t) (hu : s.deref timer = some u)
    (h : u.expire ≤ t.expire) (n : Nat) :
    findTmp s timer (n + 1) tmp = some tmp := by
  have hstop : ¬ t.expire < u.expire := by omega
  rw [findTmp, ht, hu]
  show (if tmp = s.tail then _ else if t.expire < u.expire then _ else _) = _
  rw [if_neg hstop, ite_self]

/-- The loop of the private `add_timer` moves at most once: the node it moves
to expires no earlier than the timer, and the loop asks for the opposite. -/
theorem findTmp_fuel (s : SortTimerLst) (timer : Option Nat) (n : Nat)
    (tmp : Option Nat) :
    findTmp s timer (n + 2) tmp = findTmp s timer 2 tmp := by
  rw [findTmp, findTmp]
  cases ht : s.deref tmp with
  | none => rfl
  | some t =>
      cases hu : s.deref timer with
      | none => rfl
      | some u =>
          cases hn : s.deref t.next with
          | none =>
              simp only [Option.bind_eq_bind, Option.bind_some, hn]
              rfl
          | some v =>
              simp only [Option.bind_eq_bind, Option.bind_some, hn]
              by_cases hle : u.expire ≤ v.expire
              · rw [findTmp_stop hn hu hle n, findTmp_stop hn hu hle 0]
              · rw [if_neg hle, if_neg hle]

end LearningLinux.TimerList
