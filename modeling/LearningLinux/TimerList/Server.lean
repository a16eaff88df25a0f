import LearningLinux.Lib.Threads
import LearningLinux.TimerList.Contract

/-!
# The server that keeps its connections in a `sort_timer_lst`

The loop of `server.cpp`, one step for each event of `epoll_wait` and one for
the end of a batch, where a timeout is handled. Each connection has a timer,
which is moved back when data arrives and closes the connection when it goes
off. Time passes between the steps and never goes back.

The new timer expires no earlier than the ones in the list, which is where the
private `add_timer` writes through a null pointer, and what `accept` returns is
an index into `users` without a test. So the server lives as long as every
`accept` succeeds with a small descriptor and it has one connection at a time.
As long as it does, exactly the silent connections are closed.

`accept` fails or returns a descriptor that is not open; `new` returns an
address that is not in use. The `EPOLL_CTL_DEL` of `cb_func` goes to
descriptor 0 and does nothing; the kernel forgets a descriptor when it is
closed.
-/

namespace LearningLinux.TimerList

open Lib SortTimerLst

/-- The length of `users`. -/
def FD_LIMIT : Nat := 65535
def TIMESLOT : Int := 5

/-- `timer` is the field of `users[fd]`, `user_data` the `fd` of the client
that a timer belongs to. `sockets` are the connections that are open and
`active` is when each was accepted or last sent something; these two are not
in the code. An access outside of `users` or through a null or dangling
pointer sets `crashed`. -/
structure Server where
  lst : SortTimerLst
  timer : Nat → Option Nat
  user_data : Nat → Nat
  sockets : List Nat
  active : Nat → Int
  timeout : Bool
  stop_server : Bool
  stopped : Bool
  now : Int
  crashed : Bool

/-- What `recv` returns: bytes, the end of the stream, `EAGAIN` or another
error. -/
inductive Ret where
  | data
  | closed
  | again
  | failed
deriving DecidableEq, Repr

/-- `connfd` is none if `accept` fails, and `addr` what `new` returns behind
it. `epollFailed` is a failure of `epoll_wait` other than `EINTR`; with that
one the batch is empty. -/
inductive Event where
  | accept (connfd : Option Nat) (addr : Nat)
  | sigalrm
  | sigterm
  | recv (sockfd : Nat) (ret : Ret)
  | batchEnd
  | epollFailed
  | time (seconds : Nat)
deriving DecidableEq, Repr

def Server.init (now : Int) : Server :=
  ⟨SortTimerLst.empty, fun _ => none, fun _ => 0, [], fun _ => 0, false, false,
    false, now, false⟩

/-- An operation of the list is done, or the server is. -/
def Server.withList (s : Server) (r : Option SortTimerLst) : Server :=
  match r with
  | some lst => { s with lst := lst }
  | none => { s with crashed := true }

/-- The connection is entered in `users` and gets its timer. -/
def Server.accepted (s : Server) (connfd addr : Nat) : Server :=
  { s with
    timer := Function.update s.timer connfd (some addr)
    user_data := Function.update s.user_data addr connfd
    sockets := connfd :: s.sockets
    active := Function.update s.active connfd s.now }.withList
      (addTimer (s.lst.newTimer addr (s.now + 3 * TIMESLOT)) (some addr))

/-- `cb_func`. -/
def Server.cbFunc (s : Server) (fd : Nat) : Server :=
  { s with sockets := s.sockets.erase fd }

/-- A connection has failed or has been closed by the other side. -/
def Server.hangUp (s : Server) (fd : Nat) : Server :=
  match s.timer fd with
  | none => s.cbFunc fd
  | some a => (s.cbFunc fd).withList (delTimer s.lst (some a))

/-- Data has arrived. -/
def Server.received (s : Server) (fd : Nat) : Server :=
  match s.timer fd with
  | none => s
  | some a =>
      { s with active := Function.update s.active fd s.now }.withList
        ((s.lst.setExpire a (s.now + 3 * TIMESLOT)).bind fun lst =>
          adjustTimer lst (some a))

/-- `timer_handler`, and the reset of `timeout`. -/
def Server.timerHandler (s : Server) : Server :=
  match tick s.now s.lst with
  | none => { s with crashed := true }
  | some (lst, fired) =>
      { (fired.foldl (fun s a => s.cbFunc (s.user_data a)) s) with
        lst := lst
        timeout := false }

def Server.step (s : Server) (e : Event) : Option Server :=
  if s.crashed ∨ s.stopped then none
  else match e with
    -- `users[-1]`
    | .accept none _ => some { s with crashed := true }
    | .accept (some connfd) addr =>
        if connfd ∉ s.sockets ∧ s.lst.heap addr = none then
          if connfd < FD_LIMIT then some (s.accepted connfd addr)
          else some { s with crashed := true }
        else none
    | .sigalrm => some { s with timeout := true }
    | .sigterm => some { s with stop_server := true }
    | .recv sockfd ret =>
        if sockfd ∈ s.sockets then
          match ret with
          | .data => some (s.received sockfd)
          | .again => some s
          | .closed | .failed => some (s.hangUp sockfd)
        else none
    | .batchEnd =>
        some { (if s.timeout then s.timerHandler else s) with
          stopped := s.stop_server }
    | .epollFailed => some { s with stopped := true }
    | .time seconds => some { s with now := s.now + seconds }

/-! ## One connection at a time -/

/-- A connection is accepted only when no other is open, with a descriptor that
is an index of `users`. -/
def AcceptsAlone (s : Server) : Event → Prop
  | .accept connfd _ => s.sockets = [] ∧ ∃ fd ∈ connfd, fd < FD_LIMIT
  | _ => True

/-- The connection and its timer, which expires 15 seconds after the last
sign of life. -/
structure Serves (s : Server) (fd a : Nat) : Prop where
  timer : s.timer fd = some a
  user_data : s.user_data a = fd
  repr : Represents s.lst [a]
  expire : s.lst.expireOf a = s.active fd + 3 * TIMESLOT
  active : s.active fd ≤ s.now

/-- There is no connection and no timer, or one connection with its timer. -/
inductive Server.Tidy (s : Server) : Prop where
  | idle (hs : s.sockets = []) (hrep : Represents s.lst [])
  | serving (fd a : Nat) (hs : s.sockets = [fd]) (h : Serves s fd a)

/-! ## What the list does to one timer -/

section One

variable {lst : SortTimerLst} {l : List Nat} {a x : Nat} {e : Int}

theorem addTimer_new (h : Represents lst l) (ha : lst.heap a = none) :
    Refines (lst.newTimer a e) (addTimer (lst.newTimer a e) (some a))
      (addList (lst.newTimer a e).expireOf a l) := by
  have hnew : a ∉ l := fun hmem => by
    have hlive := h.live a hmem
    rw [Live, ha] at hlive
    cases hlive
  have hself : (lst.newTimer a e).heap a = some ⟨e, none, none⟩ :=
    Function.update_self ..
  exact addTimer_refines (h.newTimer hnew) (by rw [Live, hself]; rfl) hnew
    (Nat.succ_le_succ h.count) (by rw [nxOf, hself]; rfl)
    (by rw [pvOf, hself]; rfl)

theorem expireOf_newTimer_self (lst : SortTimerLst) (a : Nat) (e : Int) :
    (lst.newTimer a e).expireOf a = e := by
  simp [expireOf, newTimer]

theorem addTimer_first (h : Represents lst []) (ha : lst.heap a = none) :
    ∃ lst', addTimer (lst.newTimer a e) (some a) = some lst' ∧
      Represents lst' [a] ∧ lst'.expireOf a = e := by
  obtain ⟨lst', hadd, hrep, hsame⟩ := addTimer_new (e := e) h ha
  exact ⟨lst', hadd, hrep,
    (hsame.expire a).trans (expireOf_newTimer_self lst a e)⟩

/-- A second timer that expires no earlier. -/
theorem addTimer_second (h : Represents lst [x]) (ha : lst.heap a = none)
    (hle : lst.expireOf x ≤ e) :
    addTimer (lst.newTimer a e) (some a) = none := by
  have hne : x ≠ a := fun heq => by
    have hlive := h.live x List.mem_cons_self
    rw [Live, heq, ha] at hlive
    cases hlive
  have hadd := addTimer_new (e := e) h ha
  rw [addList, expireOf_newTimer_self, expireOf_newTimer_ne hne,
    if_neg (by omega)] at hadd
  exact hadd

theorem adjustTimer_only (h : Represents lst [a]) :
    ∃ lst', ((lst.setExpire a e).bind fun s => adjustTimer s (some a)) =
        some lst' ∧ Represents lst' [a] ∧ lst'.expireOf a = e := by
  obtain ⟨s, hs, hea, -, hrep⟩ := setExpire_spec e (h.live a (by simp))
  have hadjust := adjustTimer_refines (hrep _ h) (List.mem_singleton.mpr rfl)
  have hlist : adjustList s.expireOf a [a] = some [a] := by
    rw [adjustList, after, if_pos rfl]
  rw [hlist] at hadjust
  obtain ⟨lst', hcode, hrep', hsame⟩ := hadjust
  refine ⟨lst', ?_, hrep', (hsame.expire a).trans hea⟩
  rw [hs, Option.bind_some, hcode]

theorem delTimer_only (h : Represents lst [a]) :
    ∃ lst', delTimer lst (some a) = some lst' ∧ Represents lst' [] := by
  obtain ⟨lst', hcode, hrep, -⟩ := delTimer_spec h (List.mem_singleton.mpr rfl)
  rw [List.erase_cons_head] at hrep
  exact ⟨lst', hcode, hrep⟩

end One

/-! ## One step -/

variable {s t : Server} {e : Event}

/-- The server runs, and its list is in order. -/
structure Server.Good (s : Server) : Prop where
  alive : s.crashed = false
  tidy : s.Tidy

theorem Server.good_init (now : Int) : (Server.init now).Good :=
  ⟨rfl, .idle rfl wellFormed_init.repr⟩

theorem Server.step_accept {connfd : Option Nat} {addr : Nat}
    (h : s.step (.accept connfd addr) = some t) :
    (∃ fd ∈ connfd, fd < FD_LIMIT ∧ s.lst.heap addr = none ∧
        t = s.accepted fd addr) ∨ t.crashed = true := by
  obtain ⟨-, h⟩ := Option.ite_none_left_eq_some.mp h
  cases connfd with
  | none =>
      cases h
      exact .inr rfl
  | some fd =>
      obtain ⟨⟨-, hfree⟩, h⟩ := Option.ite_none_right_eq_some.mp h
      split at h
      · next hlt =>
          cases h
          exact .inl ⟨fd, rfl, hlt, hfree, rfl⟩
      · cases h
        exact .inr rfl

/-- The first connection gets its timer. -/
theorem Server.Good.accepted (h : s.Good) (hs : s.sockets = [])
    {addr : Nat} (hfree : s.lst.heap addr = none) (connfd : Nat) :
    (s.accepted connfd addr).Good := by
  have hrep : Represents s.lst [] := by
    cases h.tidy with
    | idle _ hrep => exact hrep
    | serving fd a hfd _ =>
        rw [hs] at hfd
        cases hfd
  obtain ⟨lst, hadd, hrep', hexp⟩ :=
    addTimer_first (e := s.now + 3 * TIMESLOT) hrep hfree
  rw [Server.accepted, hadd, withList]
  refine ⟨h.alive, .serving connfd addr (by rw [hs]) ⟨Function.update_self ..,
    Function.update_self .., hrep', ?_, ?_⟩⟩
  · dsimp only
    rw [hexp, Function.update_self]
  · dsimp only
    rw [Function.update_self]

theorem Server.Good.accept (h : s.Good) {connfd : Option Nat} {addr : Nat}
    (halone : AcceptsAlone s (.accept connfd addr))
    (hstep : s.step (.accept connfd addr) = some t) : t.Good := by
  obtain ⟨hs, fd, rfl, hlt⟩ := halone
  obtain ⟨-, hstep⟩ := Option.ite_none_left_eq_some.mp hstep
  obtain ⟨⟨-, hfree⟩, hstep⟩ := Option.ite_none_right_eq_some.mp hstep
  rw [if_pos hlt] at hstep
  cases hstep
  exact h.accepted hs hfree fd

/-- A failing `accept` is the end, and so is the second connection. -/
theorem Server.Good.alone (h : s.Good) {connfd : Option Nat} {addr : Nat}
    (hstep : s.step (.accept connfd addr) = some t)
    (halive : t.crashed = false) : AcceptsAlone s (.accept connfd addr) := by
  rcases step_accept hstep with ⟨fd, hfd, hlt, hfree, rfl⟩ | hcrashed
  · refine ⟨?_, fd, hfd, hlt⟩
    cases h.tidy with
    | idle hs _ => exact hs
    | serving fd a hs hserves =>
        have hle : s.lst.expireOf a ≤ s.now + 3 * TIMESLOT := by
          rw [hserves.expire]
          have := hserves.active
          omega
        rw [Server.accepted, addTimer_second hserves.repr hfree hle] at halive
        cases halive
  · rw [hcrashed] at halive
    cases halive

/-- The only connection sends something. -/
theorem Server.Good.received (h : s.Good) {fd a : Nat} (hs : s.sockets = [fd])
    (hserves : Serves s fd a) : (s.received fd).Good := by
  obtain ⟨lst, hcode, hrep, hexp⟩ :=
    adjustTimer_only (e := s.now + 3 * TIMESLOT) hserves.repr
  rw [Server.received, hserves.timer]
  dsimp only
  rw [hcode, withList]
  refine ⟨h.alive, .serving fd a hs
    ⟨hserves.timer, hserves.user_data, hrep, ?_, ?_⟩⟩
  · dsimp only
    rw [hexp, Function.update_self]
  · dsimp only
    rw [Function.update_self]

/-- The only connection ends. -/
theorem Server.Good.hangUp (h : s.Good) {fd a : Nat} (hs : s.sockets = [fd])
    (hserves : Serves s fd a) : (s.hangUp fd).Good := by
  obtain ⟨lst, hcode, hrep⟩ := delTimer_only hserves.repr
  rw [Server.hangUp, hserves.timer]
  dsimp only
  rw [hcode, withList]
  exact ⟨h.alive, .idle (by simp [cbFunc, hs]) hrep⟩

theorem Server.Good.recv (h : s.Good) {fd : Nat} {ret : Ret}
    (hstep : s.step (.recv fd ret) = some t) : t.Good := by
  obtain ⟨-, hstep⟩ := Option.ite_none_left_eq_some.mp hstep
  obtain ⟨hmem, hstep⟩ := Option.ite_none_right_eq_some.mp hstep
  cases h.tidy with
  | idle hs _ =>
      rw [hs] at hmem
      cases hmem
  | serving fd' a hs hserves =>
      rw [hs, List.mem_singleton] at hmem
      subst hmem
      cases ret with
      | data =>
          cases hstep
          exact h.received hs hserves
      | again =>
          cases hstep
          exact h
      | closed =>
          cases hstep
          exact h.hangUp hs hserves
      | failed =>
          cases hstep
          exact h.hangUp hs hserves

/-- The timers that are due close their connections. -/
theorem Server.Good.timerHandler (h : s.Good) :
    s.timerHandler.Good ∧ ∀ fd, fd ∈ s.timerHandler.sockets ↔
      fd ∈ s.sockets ∧ s.now < s.active fd + 3 * TIMESLOT := by
  cases h.tidy with
  | idle hs hrep =>
      obtain ⟨lst, htick, hrep', -⟩ := @tick_spec _ _ s.now hrep
      rw [Server.timerHandler, htick]
      refine ⟨⟨h.alive, .idle hs hrep'⟩, fun fd => ?_⟩
      simp [hs]
  | serving fd a hs hserves =>
      obtain ⟨lst, htick, hrep, hexp⟩ := @tick_spec _ _ s.now hserves.repr
      rw [List.takeWhile_cons, List.takeWhile_nil] at htick
      rw [List.dropWhile_cons, List.dropWhile_nil] at hrep hexp
      rw [Server.timerHandler, htick]
      by_cases hdue : s.lst.expireOf a ≤ s.now
      · simp only [hdue, decide_true, if_true] at hrep ⊢
        rw [hserves.expire] at hdue
        have hsockets : (s.cbFunc (s.user_data a)).sockets = [] := by
          simp [cbFunc, hserves.user_data, hs]
        refine ⟨⟨h.alive, .idle hsockets hrep⟩, fun x => ?_⟩
        show x ∈ (s.cbFunc (s.user_data a)).sockets ↔ _
        rw [hsockets, hs, List.mem_singleton]
        constructor
        · intro hmem
          cases hmem
        · rintro ⟨rfl, hlt⟩
          omega
      · simp only [hdue, decide_false, Bool.false_eq_true, if_false] at hrep hexp ⊢
        have hsame := hexp a (List.mem_singleton.mpr rfl)
        refine ⟨⟨h.alive, .serving fd a hs ⟨hserves.timer, hserves.user_data,
          hrep, hsame.trans hserves.expire, hserves.active⟩⟩, fun x => ?_⟩
        rw [hserves.expire] at hdue
        show x ∈ s.sockets ↔ _
        rw [hs, List.mem_singleton]
        constructor
        · rintro rfl
          exact ⟨rfl, by omega⟩
        · exact And.left

/-- Flags and the clock do not matter. -/
theorem Server.Tidy.congr (h : s.Tidy) (hlst : t.lst = s.lst)
    (htimer : t.timer = s.timer) (hdata : t.user_data = s.user_data)
    (hsockets : t.sockets = s.sockets) (hactive : t.active = s.active)
    (hnow : s.now ≤ t.now) : t.Tidy := by
  cases h with
  | idle hs hrep => exact .idle (hsockets.trans hs) (by rw [hlst]; exact hrep)
  | serving fd a hs hserves =>
      refine .serving fd a (hsockets.trans hs) ⟨?_, ?_, ?_, ?_, ?_⟩
      · rw [htimer, hserves.timer]
      · rw [hdata, hserves.user_data]
      · rw [hlst]
        exact hserves.repr
      · rw [hlst, hactive, hserves.expire]
      · rw [hactive]
        exact hserves.active.trans hnow

theorem Server.step_sigalrm (h : s.step .sigalrm = some t) :
    t = { s with timeout := true } := by
  obtain ⟨-, h⟩ := Option.ite_none_left_eq_some.mp h
  exact (Option.some.inj h).symm

theorem Server.step_sigterm (h : s.step .sigterm = some t) :
    t = { s with stop_server := true } := by
  obtain ⟨-, h⟩ := Option.ite_none_left_eq_some.mp h
  exact (Option.some.inj h).symm

theorem Server.step_time {seconds : Nat} (h : s.step (.time seconds) = some t) :
    t = { s with now := s.now + seconds } := by
  obtain ⟨-, h⟩ := Option.ite_none_left_eq_some.mp h
  exact (Option.some.inj h).symm

theorem Server.step_epollFailed (h : s.step .epollFailed = some t) :
    t = { s with stopped := true } := by
  obtain ⟨-, h⟩ := Option.ite_none_left_eq_some.mp h
  exact (Option.some.inj h).symm

theorem Server.step_batchEnd (h : s.step .batchEnd = some t) :
    t = { (if s.timeout then s.timerHandler else s) with
      stopped := s.stop_server } := by
  obtain ⟨-, h⟩ := Option.ite_none_left_eq_some.mp h
  exact (Option.some.inj h).symm

theorem Server.Good.batchEnd (h : s.Good) (hstep : s.step .batchEnd = some t) :
    t.Good := by
  rw [step_batchEnd hstep]
  have hgood : (if s.timeout then s.timerHandler else s).Good := by
    split
    · exact h.timerHandler.1
    · exact h
  exact ⟨hgood.alive, hgood.tidy.congr rfl rfl rfl rfl rfl le_rfl⟩

/-- One event, unless it is an `accept` that is the end. -/
theorem Server.Good.step (h : s.Good) (halone : AcceptsAlone s e)
    (hstep : s.step e = some t) : t.Good := by
  cases e with
  | accept connfd addr => exact h.accept halone hstep
  | recv fd ret => exact h.recv hstep
  | batchEnd => exact h.batchEnd hstep
  | sigalrm =>
      rw [step_sigalrm hstep]
      exact ⟨h.alive, h.tidy.congr rfl rfl rfl rfl rfl le_rfl⟩
  | sigterm =>
      rw [step_sigterm hstep]
      exact ⟨h.alive, h.tidy.congr rfl rfl rfl rfl rfl le_rfl⟩
  | epollFailed =>
      rw [step_epollFailed hstep]
      exact ⟨h.alive, h.tidy.congr rfl rfl rfl rfl rfl le_rfl⟩
  | time seconds =>
      rw [step_time hstep]
      exact ⟨h.alive, h.tidy.congr rfl rfl rfl rfl rfl
        (Int.le_add_of_nonneg_right (Int.natCast_nonneg seconds))⟩

/-! ## Every run -/

/-- What the end of a batch does to the connections: if `SIGALRM` has been
read, those that were silent for 15 seconds are closed and no others are;
otherwise nothing happens. -/
def ClosesSilent (s : Server) : Event → Prop
  | .batchEnd => ∀ t, s.step .batchEnd = some t → ∀ fd, fd ∈ t.sockets ↔
      fd ∈ s.sockets ∧ (s.timeout = true → s.now < s.active fd + 3 * TIMESLOT)
  | _ => True

theorem Server.Good.closesSilent (h : s.Good) (e : Event) :
    ClosesSilent s e := by
  cases e with
  | batchEnd =>
      intro t hstep fd
      rw [step_batchEnd hstep]
      cases htimeout : s.timeout with
      | true => simpa using h.timerHandler.2 fd
      | false => simp
  | accept connfd addr => trivial
  | sigalrm => trivial
  | sigterm => trivial
  | recv fd ret => trivial
  | epollFailed => trivial
  | time seconds => trivial

/-- A run of the server goes on without a bad access exactly if every `accept`
returns a descriptor below `FD_LIMIT` and none is called while a connection is
open. In such a run the list holds the timer of the open connection and nothing
else, every time between two events, and a connection is closed by its timer
exactly if it was silent. -/
theorem server_runs (start : Int) (acts : List Event) :
    (Always Server.step (fun s => s.crashed = false) (.init start) acts ↔
      Along Server.step AcceptsAlone (.init start) acts) ∧
    (Along Server.step AcceptsAlone (.init start) acts →
      Always Server.step Server.Tidy (.init start) acts ∧
      Along Server.step ClosesSilent (.init start) acts) := by
  have hgood := Server.good_init start
  have hstep : ∀ s a t, Server.Good s → AcceptsAlone s a →
      s.step a = some t → t.Good := fun s a t h => h.step
  refine ⟨always_iff_along (fun s h => h.alive) hstep ?_ hgood, fun halone =>
    ⟨always_of_along (fun s h => h.tidy) hstep hgood halone,
      along_of_along (fun s a h => h.closesSilent a) hstep hgood halone⟩⟩
  intro s a t h hs halive
  cases a with
  | accept connfd addr => exact h.alone hs halive
  | sigalrm => trivial
  | sigterm => trivial
  | recv fd ret => trivial
  | batchEnd => trivial
  | epollFailed => trivial
  | time seconds => trivial

end LearningLinux.TimerList
