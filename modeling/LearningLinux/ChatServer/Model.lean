import LearningLinux.Lib.Threads
import Mathlib.Data.Int.Range

/-!
# The server loop of `chat/server.cpp`

The table `fds` with its counter, the client data, and the loop that polls and
then goes over the table once. A step is one call of `poll` or one round of
the inner loop. What the calls of a round return is the choice of the
environment: the result of `accept`, if the round accepts, and of `recv`, if
it receives.

Three things are recorded and never read: the connections that have been
accepted into the table and not been closed, the table as it was when `poll`
returned, and the entries the pass has come to since, each with the `revents`
it had then.
-/

namespace LearningLinux.ChatServer

open LearningLinux.Lib

def USER_LIMIT : Int := 5

inductive Poll where
  | POLLIN
  | POLLOUT
  | POLLERR
  | POLLHUP
  | POLLNVAL
  | POLLRDHUP
deriving DecidableEq, Repr

open Poll

structure PollFd where
  fd : Int
  events : Finset Poll
  revents : Finset Poll
deriving DecidableEq

/-- `client_data`, as far as a branch depends on it: `write_buf` points to the
buffer of a connection, or is null. -/
structure ClientData where
  write_buf : Option Int
deriving DecidableEq, Repr

/-- Where the server is: before `poll`, at the inner loop with index `i`, or
out of the loop. -/
inductive Pc where
  | poll
  | pass (i : Int)
  | stopped
deriving DecidableEq, Repr

/-- What `recv` returns: less than `0`, with `errno` equal to `EAGAIN` or not,
`0`, or more than `0`. -/
inductive Recv where
  | failed (eagain : Bool)
  | closed
  | data
deriving DecidableEq, Repr

structure State where
  fds : Int → PollFd
  user_counter : Int
  users : Int → ClientData
  pc : Pc
  connections : Finset Int
  polled : Int → PollFd
  polledCounter : Int
  handled : List (Int × Finset Poll)

/-- The table before the first iteration. The client data is not initialised. -/
def init (listenfd : Int) (users : Int → ClientData) : State where
  fds := fun i => if i = 0 then ⟨listenfd, {POLLIN, POLLERR}, ∅⟩
    else ⟨-1, ∅, ∅⟩
  user_counter := 0
  users := users
  pc := .poll
  connections := ∅
  polled := fun _ => ⟨-1, ∅, ∅⟩
  polledCounter := -1
  handled := []

namespace State

def setFd (s : State) (i : Int) (p : PollFd) : State :=
  { s with
    fds := Function.update s.fds i p }

def setUser (s : State) (fd : Int) (c : ClientData) : State :=
  { s with
    users := Function.update s.users fd c }

/-- The test of the inner loop, with the next index. -/
def next (s : State) (i : Int) : State :=
  { s with
    pc := if i < s.user_counter + 1 then .pass i else .poll }

/-- A new connection is appended to the table. -/
def append (s : State) (connfd : Int) : State :=
  { s with
    user_counter := s.user_counter + 1
    fds := Function.update s.fds (s.user_counter + 1)
      ⟨connfd, {POLLIN, POLLRDHUP, POLLERR}, ∅⟩
    connections := insert connfd s.connections }

/-- The connection of entry `i` is closed, and the last entry takes its
place. -/
def remove (s : State) (i : Int) : State :=
  { s with
    users := Function.update s.users (s.fds i).fd
      (s.users (s.fds s.user_counter).fd)
    fds := Function.update s.fds i (s.fds s.user_counter)
    user_counter := s.user_counter - 1
    connections := s.connections.erase (s.fds i).fd }

/-- One round of the loop that offers the data of `connfd` to entry `j`. -/
def offer (connfd : Int) (s : State) (j : Int) : State :=
  if (s.fds j).fd = connfd then s
  else
    (s.setFd j { s.fds j with
      events := insert POLLOUT ((s.fds j).events.erase POLLIN) }).setUser
        (s.fds j).fd ⟨some connfd⟩

/-- `for (int j = 1; j <= user_counter; ++j)` -/
def offerAll (s : State) (connfd : Int) : State :=
  (List.range s.user_counter.toNat).foldl
    (fun s j => s.offer connfd ((j : Int) + 1)) s

/-- The client data has been written, or there was none. -/
def written (s : State) (i : Int) : State :=
  (s.setFd i { s.fds i with
    events := insert POLLIN ((s.fds i).events.erase POLLOUT) }).setUser
      (s.fds i).fd ⟨none⟩

/-- The round of the inner loop for entry `i`. The index of a removed entry is
decremented by the round and incremented by the loop. -/
def handle (listenfd : Int) (s : State) (i : Int) (accepted : Int)
    (received : Recv) : State :=
  if (s.fds i).fd = listenfd ∧ POLLIN ∈ (s.fds i).revents then
    if accepted < 0 then s.next (i + 1)
    else if USER_LIMIT ≤ s.user_counter then s.next (i + 1)
    else (s.append accepted).next (i + 1)
  else if POLLERR ∈ (s.fds i).revents then s.next (i + 1)
  else if POLLRDHUP ∈ (s.fds i).revents then (s.remove i).next (i - 1 + 1)
  else if POLLIN ∈ (s.fds i).revents then
    match received with
    | .failed eagain =>
        if eagain then s.next (i + 1) else (s.remove i).next (i - 1 + 1)
    | .closed => s.next (i + 1)
    | .data => (s.offerAll (s.fds i).fd).next (i + 1)
  else if POLLOUT ∈ (s.fds i).revents then (s.written i).next (i + 1)
  else s.next (i + 1)

/-- `poll` returns and the pass begins. -/
def polls (s : State) (revents : Int → Finset Poll) : State :=
  let fds := fun i =>
    if 0 ≤ i ∧ i ≤ s.user_counter then { s.fds i with
      revents := revents i } else s.fds i
  { s with
    fds := fds
    pc := if 0 < s.user_counter + 1 then .pass 0 else .poll
    polled := fds
    polledCounter := s.user_counter
    handled := [] }

/-- The pass comes to entry `i`. -/
def visits (s : State) (i : Int) : State :=
  { s with
    handled := s.handled ++ [((s.fds i).fd, (s.fds i).revents)] }

end State

/-! ## Runs -/

inductive Act where
  | poll (revents : Int → Finset Poll)
  | pollFails
  | round (accepted : Int) (received : Recv)

def step (listenfd : Int) (s : State) : Act → Option State
  | .poll revents =>
      if s.pc = .poll then some (s.polls revents) else none
  | .pollFails =>
      if s.pc = .poll then some { s with
        pc := .stopped } else none
  | .round accepted received =>
      match s.pc with
      | .pass i => some ((s.visits i).handle listenfd i accepted received)
      | .poll | .stopped => none

/-- What the system promises: `poll` reports what was asked for, or one of
three more, and `accept` returns a descriptor that is not open. -/
def Legal (listenfd : Int) (s : State) : Act → Prop
  | .poll revents => ∀ i, 0 ≤ i → i ≤ s.user_counter →
      revents i ⊆ (s.fds i).events ∪ {POLLERR, POLLHUP, POLLNVAL}
  | .pollFails => True
  | .round accepted _ => 0 ≤ accepted →
      accepted ≠ listenfd ∧ accepted ∉ s.connections

instance (listenfd : Int) (s : State) : ∀ a, Decidable (Legal listenfd s a)
  | .poll revents => inferInstanceAs (Decidable (∀ i, 0 ≤ i →
      i ≤ s.user_counter →
        revents i ⊆ (s.fds i).events ∪ {POLLERR, POLLHUP, POLLNVAL}))
  | .pollFails => inferInstanceAs (Decidable True)
  | .round accepted _ => inferInstanceAs (Decidable (0 ≤ accepted →
      accepted ≠ listenfd ∧ accepted ∉ s.connections))

end LearningLinux.ChatServer
