import LearningLinux.ChatServer.Model

/-!
# The connection table of the chat server

`Table` is what holds of the table at every moment: entry `0` is the listening
socket, the counter stays within the array, and the other entries are the
connections that the server has accepted and not closed, each of them once.

`Pass` is what holds while the inner loop is before entry `i`. Of the entries
there were when `poll` returned, each one either has been handled and is not
in the rest of the table any more, or has not and is in the rest of the table
with the `revents` it was given. Removing an entry takes the last one, which
is still ahead, to the index that comes next; an appended one is ahead too,
but was not there when `poll` returned. When the rest of the table is empty,
every entry has been handled, and handled once.
-/

namespace LearningLinux.ChatServer

open LearningLinux.Lib
open Poll

variable {listenfd : Int} {s s' : State} {i : Int}

/-! ## The table -/

structure Table (listenfd : Int) (s : State) : Prop where
  listening : (s.fds 0).fd = listenfd
  nonneg : 0 ≤ s.user_counter
  le_limit : s.user_counter ≤ USER_LIMIT
  distinct : ∀ j k, 1 ≤ j → j ≤ s.user_counter → 1 ≤ k →
    k ≤ s.user_counter → (s.fds j).fd = (s.fds k).fd → j = k
  connected : ∀ fd, fd ∈ s.connections ↔
    ∃ k, 1 ≤ k ∧ k ≤ s.user_counter ∧ (s.fds k).fd = fd

theorem Table.fd_ne (h : Table listenfd s) {j k : Int} (hj : 1 ≤ j)
    (hju : j ≤ s.user_counter) (hk : 1 ≤ k) (hku : k ≤ s.user_counter)
    (hne : j ≠ k) : (s.fds j).fd ≠ (s.fds k).fd :=
  fun heq => hne (h.distinct j k hj hju hk hku heq)

/-- The listening socket is not among the connections, and nothing but a
connection or an error is waited for on it. -/
structure Inv (listenfd : Int) (s : State) : Prop extends Table listenfd s where
  events : (s.fds 0).events = {POLLIN, POLLERR}
  apart : listenfd ∉ s.connections

/-- No two entries have the same descriptor, the first one included. -/
theorem Inv.inj (h : Inv listenfd s) {j k : Int} (hj : 0 ≤ j)
    (hju : j ≤ s.user_counter) (hk : 0 ≤ k) (hku : k ≤ s.user_counter)
    (heq : (s.fds j).fd = (s.fds k).fd) : j = k := by
  have hne : ∀ m, 1 ≤ m → m ≤ s.user_counter → (s.fds m).fd ≠ listenfd := by
    intro m hm hmu hfd
    exact h.apart ((h.connected listenfd).mpr ⟨m, hm, hmu, hfd⟩)
  by_cases hj0 : j = 0
  · by_cases hk0 : k = 0
    · rw [hj0, hk0]
    · rw [hj0, h.listening] at heq
      exact absurd heq.symm (hne k (by omega) hku)
  · by_cases hk0 : k = 0
    · rw [hk0, h.listening] at heq
      exact absurd heq (hne j (by omega) hju)
    · exact h.distinct j k (by omega) hju (by omega) hku heq

theorem inv_init {users : Int → ClientData} :
    Inv listenfd (init listenfd users) where
  listening := rfl
  nonneg := Int.le_refl 0
  le_limit := (by decide : (0 : Int) ≤ USER_LIMIT)
  distinct := by
    intro j k hj hju
    change j ≤ 0 at hju
    omega
  connected := by
    intro fd
    constructor
    · intro hfd
      cases hfd
    · intro ⟨k, hk, hku, _⟩
      change k ≤ 0 at hku
      omega
  events := rfl
  apart := by intro h; cases h

/-! ## The pass -/

/-- What has been done about a descriptor since `poll` returned. -/
def times (s : State) (fd : Int) : List (Int × Finset Poll) :=
  s.handled.filter fun e => e.1 = fd

/-- The entry `p` has been handled, once, and is not among those from `i` on. -/
def Done (s : State) (i : Int) (p : PollFd) : Prop :=
  times s p.fd = [(p.fd, p.revents)] ∧
    ∀ j, i ≤ j → j ≤ s.user_counter → (s.fds j).fd ≠ p.fd

/-- The entry `p` has not been handled and is among those from `i` on. -/
def Ahead (s : State) (i : Int) (p : PollFd) : Prop :=
  times s p.fd = [] ∧ ∃ j, i ≤ j ∧ j ≤ s.user_counter ∧
    (s.fds j).fd = p.fd ∧ (s.fds j).revents = p.revents

structure Pass (s : State) (i : Int) : Prop where
  nonneg : 0 ≤ i
  quiet : POLLRDHUP ∉ (s.fds 0).revents ∧ POLLOUT ∉ (s.fds 0).revents
  start : i = 0 → s.handled = []
  entries : ∀ k, 0 ≤ k → k ≤ s.polledCounter →
    Done s i (s.polled k) ∨ Ahead s i (s.polled k)

/-- Every entry there was when `poll` returned has been handled exactly once,
with the events `poll` reported for it. -/
def HandledOnce (s : State) : Prop :=
  ∀ k, 0 ≤ k → k ≤ s.polledCounter →
    times s (s.polled k).fd = [((s.polled k).fd, (s.polled k).revents)]

theorem Pass.handledOnce (h : Pass s i) (hi : s.user_counter < i) :
    HandledOnce s := by
  intro k hk hku
  rcases h.entries k hk hku with hdone | ⟨-, j, hj, hju, -⟩
  · exact hdone.1
  · omega

theorem times_visits {fd : Int} : times (s.visits i) fd =
    times s fd ++ if (s.fds i).fd = fd
      then [((s.fds i).fd, (s.fds i).revents)] else [] := by
  change (s.handled ++ [((s.fds i).fd, (s.fds i).revents)]).filter _ = _
  rw [List.filter_append]
  congr 1
  by_cases heq : (s.fds i).fd = fd
  · rw [if_pos heq, List.filter_cons_of_pos (by simpa using heq)]
    rfl
  · rw [if_neg heq, List.filter_cons_of_neg (by simpa using heq)]
    rfl

/-- Coming to entry `i`: it was ahead, and now it has been handled. -/
theorem Pass.visits (h : Pass s i) (hinv : Inv listenfd s)
    (hi : i ≤ s.user_counter) : Pass (s.visits i) (i + 1) where
  nonneg := by have := h.nonneg; omega
  quiet := h.quiet
  start := by have := h.nonneg; omega
  entries := by
    intro k hk hku
    by_cases heq : (s.fds i).fd = (s.polled k).fd
    · rcases h.entries k hk hku with hdone | ⟨hnone, j, hj, hju, hfd, hrev⟩
      · exact absurd heq (hdone.2 i (Int.le_refl i) hi)
      · have hji : j = i := hinv.inj (by have := h.nonneg; omega) hju h.nonneg
          hi (hfd.trans heq.symm)
        subst hji
        refine .inl ⟨?_, ?_⟩
        · change times (s.visits j) (s.polled k).fd = _
          rw [times_visits, if_pos heq, hnone, heq, hrev]
          rfl
        · intro m hm hmu hfd'
          have hmj : m = j := hinv.inj (by have := h.nonneg; omega) hmu
            h.nonneg hi (hfd'.trans heq.symm)
          omega
    · have htimes : times (s.visits i) (s.polled k).fd =
          times s (s.polled k).fd := by
        rw [times_visits, if_neg heq, List.append_nil]
      rcases h.entries k hk hku with hdone | ⟨hnone, j, hj, hju, hfd, hrev⟩
      · refine .inl ⟨htimes.trans hdone.1, ?_⟩
        exact fun m hm hmu => hdone.2 m (by omega) hmu
      · refine .inr ⟨htimes.trans hnone, j, ?_, hju, hfd, hrev⟩
        have hji : j ≠ i := by
          intro hji
          exact heq (hji ▸ hfd)
        omega

/-- The state between two rounds, or outside the inner loop. -/
structure Reached (listenfd : Int) (s : State) : Prop where
  inv : Inv listenfd s
  pass : ∀ i, s.pc = .pass i → i ≤ s.user_counter ∧ Pass s i
  polled : s.pc = .poll → HandledOnce s

theorem Reached.next (hinv : Inv listenfd s) (h : Pass s i) :
    Reached listenfd (s.next i) where
  inv := ⟨⟨hinv.listening, hinv.nonneg, hinv.le_limit, hinv.distinct,
    hinv.connected⟩, hinv.events, hinv.apart⟩
  pass := by
    intro j hj
    rw [State.next] at hj
    change (if i < s.user_counter + 1 then Pc.pass i else .poll) = _ at hj
    split at hj
    · cases hj
      refine ⟨?_, h.nonneg, h.quiet, h.start, h.entries⟩
      change i ≤ s.user_counter
      omega
    · cases hj
  polled := by
    intro hpoll
    change (if i < s.user_counter + 1 then Pc.pass i else .poll) = _ at hpoll
    split at hpoll
    · cases hpoll
    · exact h.handledOnce (by omega)

/-! ## Appending and removing -/

theorem Inv.visits (h : Inv listenfd s) : Inv listenfd (s.visits i) :=
  ⟨⟨h.listening, h.nonneg, h.le_limit, h.distinct, h.connected⟩, h.events,
    h.apart⟩

section Append

variable {connfd j : Int}

theorem fds_append (hj : j ≤ s.user_counter) :
    (s.append connfd).fds j = s.fds j :=
  Function.update_of_ne (show j ≠ s.user_counter + 1 by omega) _ s.fds

theorem fds_append_last :
    (s.append connfd).fds (s.user_counter + 1) =
      ⟨connfd, {POLLIN, POLLRDHUP, POLLERR}, ∅⟩ :=
  Function.update_self (s.user_counter + 1) _ s.fds

theorem Inv.append (h : Inv listenfd s) (hroom : s.user_counter < USER_LIMIT)
    (hnew : connfd ≠ listenfd) (hclosed : connfd ∉ s.connections) :
    Inv listenfd (s.append connfd) where
  listening := by
    rw [fds_append h.nonneg]
    exact h.listening
  nonneg := by
    have := h.nonneg
    change 0 ≤ s.user_counter + 1
    omega
  le_limit := by
    change s.user_counter + 1 ≤ USER_LIMIT
    omega
  distinct := by
    have hne : ∀ m, 1 ≤ m → m ≤ s.user_counter → (s.fds m).fd ≠ connfd := by
      intro m hm hmu hfd
      exact hclosed ((h.connected connfd).mpr ⟨m, hm, hmu, hfd⟩)
    intro j k hj hju hk hku heq
    change j ≤ s.user_counter + 1 at hju
    change k ≤ s.user_counter + 1 at hku
    by_cases hjlast : j = s.user_counter + 1
    · by_cases hklast : k = s.user_counter + 1
      · rw [hjlast, hklast]
      · rw [hjlast, fds_append_last, fds_append (by omega)] at heq
        exact absurd heq.symm (hne k hk (by omega))
    · by_cases hklast : k = s.user_counter + 1
      · rw [hklast, fds_append_last, fds_append (by omega)] at heq
        exact absurd heq (hne j hj (by omega))
      · rw [fds_append (by omega), fds_append (by omega)] at heq
        exact h.distinct j k hj (by omega) hk (by omega) heq
  connected := by
    intro fd
    change fd ∈ insert connfd s.connections ↔ _
    rw [Finset.mem_insert, h.connected]
    constructor
    · rintro (rfl | ⟨k, hk, hku, hfd⟩)
      · refine ⟨s.user_counter + 1, ?_, Int.le_refl _, ?_⟩
        · have := h.nonneg
          omega
        · rw [fds_append_last]
      · refine ⟨k, hk, ?_, ?_⟩
        · change k ≤ s.user_counter + 1
          omega
        · rw [fds_append hku, hfd]
    · intro ⟨k, hk, hku, hfd⟩
      change k ≤ s.user_counter + 1 at hku
      by_cases hklast : k = s.user_counter + 1
      · rw [hklast, fds_append_last] at hfd
        exact .inl hfd.symm
      · rw [fds_append (by omega)] at hfd
        exact .inr ⟨k, hk, by omega, hfd⟩
  events := by
    rw [fds_append h.nonneg]
    exact h.events
  apart := by
    change listenfd ∉ insert connfd s.connections
    rw [Finset.mem_insert]
    rintro (heq | hmem)
    · exact hnew heq.symm
    · exact h.apart hmem

/-- Only the listening socket has been handled when a connection is accepted. -/
theorem Pass.append (h : Pass s 1) (hinv : Inv listenfd s)
    (hfirst : ∀ e ∈ s.handled, e.1 = listenfd) (hnew : connfd ≠ listenfd) :
    Pass (s.append connfd) 1 where
  nonneg := h.nonneg
  quiet := by
    rw [fds_append hinv.nonneg]
    exact h.quiet
  start := nofun
  entries := by
    intro k hk hku
    rcases h.entries k hk hku with ⟨honce, hgone⟩ | ⟨hnone, j, hj, hju, hfd, hrev⟩
    · refine .inl ⟨honce, fun m hm hmu => ?_⟩
      change m ≤ s.user_counter + 1 at hmu
      by_cases hlast : m = s.user_counter + 1
      · have hmem : ((s.polled k).fd, (s.polled k).revents) ∈ s.handled := by
          have hin : ((s.polled k).fd, (s.polled k).revents) ∈
              times s (s.polled k).fd := by
            rw [honce]
            exact List.mem_singleton_self _
          exact List.mem_of_mem_filter hin
        have hlisten : (s.polled k).fd = listenfd := hfirst _ hmem
        change ((s.append connfd).fds m).fd ≠ (s.polled k).fd
        rw [hlast, fds_append_last, hlisten]
        exact hnew
      · change ((s.append connfd).fds m).fd ≠ (s.polled k).fd
        rw [fds_append (by omega)]
        exact hgone m hm (by omega)
    · refine .inr ⟨hnone, j, hj, ?_, ?_⟩
      · change j ≤ s.user_counter + 1
        omega
      · rw [fds_append hju]
        exact ⟨hfd, hrev⟩

end Append

section Remove

variable {j : Int}

/-- Which entry stands at `j` once `i` has been removed. -/
def State.origin (s : State) (i j : Int) : Int :=
  if j = i then s.user_counter else j

theorem fds_remove : (s.remove i).fds j = s.fds (s.origin i j) := by
  change Function.update s.fds i (s.fds s.user_counter) j = _
  rw [State.origin]
  split
  · next h => rw [h, Function.update_self]
  · next h => rw [Function.update_of_ne h]

/-- The entries that are left come from all entries but `i`. -/
theorem origin_spec (hj : j ≤ s.user_counter - 1) :
    s.origin i j ≤ s.user_counter ∧ s.origin i j ≠ i ∧
      (i ≤ j → i + 1 ≤ s.origin i j) ∧
      (1 ≤ i → 1 ≤ j → 1 ≤ s.origin i j) := by
  rw [State.origin]
  split <;> omega

theorem origin_inj {k : Int} (hj : j ≤ s.user_counter - 1)
    (hk : k ≤ s.user_counter - 1) (h : s.origin i j = s.origin i k) :
    j = k := by
  rw [State.origin, State.origin] at h
  split at h <;> split at h <;> omega

/-- Where the entry `k` is found once `i` has been removed. -/
theorem exists_origin {k : Int} (hk : k ≤ s.user_counter) (hki : k ≠ i)
    (hiu : i ≤ s.user_counter) : ∃ j, j ≤ s.user_counter - 1 ∧
      s.origin i j = k ∧ (i + 1 ≤ k → i ≤ j) ∧ (1 ≤ i → 1 ≤ k → 1 ≤ j) := by
  by_cases hlast : k = s.user_counter
  · refine ⟨i, by omega, ?_, by omega, by omega⟩
    rw [State.origin, if_pos rfl, hlast]
  · refine ⟨k, by omega, ?_, by omega, by omega⟩
    rw [State.origin, if_neg hki]

theorem fds_remove_zero (hi : 1 ≤ i) : (s.remove i).fds 0 = s.fds 0 := by
  rw [fds_remove, State.origin, if_neg (by omega)]

theorem Inv.remove (h : Inv listenfd s) (hi : 1 ≤ i)
    (hiu : i ≤ s.user_counter) : Inv listenfd (s.remove i) where
  listening := by
    rw [fds_remove_zero hi]
    exact h.listening
  nonneg := by
    change 0 ≤ s.user_counter - 1
    omega
  le_limit := by
    have := h.le_limit
    change s.user_counter - 1 ≤ USER_LIMIT
    omega
  distinct := by
    intro j k hj hju hk hku heq
    change j ≤ s.user_counter - 1 at hju
    change k ≤ s.user_counter - 1 at hku
    rw [fds_remove, fds_remove] at heq
    obtain ⟨hju', -, -, hj'⟩ := origin_spec (i := i) hju
    obtain ⟨hku', -, -, hk'⟩ := origin_spec (i := i) hku
    exact origin_inj hju hku
      (h.distinct _ _ (hj' hi hj) hju' (hk' hi hk) hku' heq)
  connected := by
    intro fd
    change fd ∈ s.connections.erase (s.fds i).fd ↔ _
    rw [Finset.mem_erase, h.connected]
    constructor
    · intro ⟨hne, k, hk, hku, hfd⟩
      have hki : k ≠ i := by
        intro heq
        exact hne (heq ▸ hfd.symm)
      obtain ⟨j, hju, horigin, -, hj⟩ := exists_origin hku hki hiu
      refine ⟨j, hj hi hk, hju, ?_⟩
      rw [fds_remove, horigin, hfd]
    · intro ⟨j, hj, hju, hfd⟩
      change j ≤ s.user_counter - 1 at hju
      rw [fds_remove] at hfd
      obtain ⟨hmu, hmi, -, hm⟩ := origin_spec (i := i) hju
      refine ⟨?_, _, hm hi hj, hmu, hfd⟩
      rw [← hfd]
      exact h.fd_ne (hm hi hj) hmu hi hiu hmi
  events := by
    rw [fds_remove_zero hi]
    exact h.events
  apart := fun hmem => h.apart (Finset.mem_of_mem_erase hmem)

/-- The rest of the table without `i` starts at `i` again. -/
theorem Pass.remove (h : Pass s (i + 1)) (hi : 1 ≤ i)
    (hiu : i ≤ s.user_counter) : Pass (s.remove i) i where
  nonneg := by omega
  quiet := by
    rw [fds_remove_zero hi]
    exact h.quiet
  start := by omega
  entries := by
    intro k hk hku
    rcases h.entries k hk hku with ⟨honce, hgone⟩ | ⟨hnone, m, hm, hmu, hfd, hrev⟩
    · refine .inl ⟨honce, fun j hj hju => ?_⟩
      change j ≤ s.user_counter - 1 at hju
      obtain ⟨hmu, -, hm, -⟩ := origin_spec (i := i) hju
      change ((s.remove i).fds j).fd ≠ (s.polled k).fd
      rw [fds_remove]
      exact hgone _ (hm hj) hmu
    · obtain ⟨j, hju, horigin, hj, -⟩ :=
        exists_origin (i := i) hmu (by omega) hiu
      refine .inr ⟨hnone, j, hj hm, hju, ?_⟩
      rw [fds_remove, horigin]
      exact ⟨hfd, hrev⟩

end Remove

/-! ## Rounds that leave the entries alone -/

/-- No descriptor and no `revents` has changed, and the listening socket's
entry not at all. -/
structure SameEntries (s s' : State) : Prop where
  zero : s'.fds 0 = s.fds 0
  fd : ∀ j, (s'.fds j).fd = (s.fds j).fd
  revents : ∀ j, (s'.fds j).revents = (s.fds j).revents
  user_counter : s'.user_counter = s.user_counter
  connections : s'.connections = s.connections
  polled : s'.polled = s.polled
  polledCounter : s'.polledCounter = s.polledCounter
  handled : s'.handled = s.handled

theorem SameEntries.refl (s : State) : SameEntries s s :=
  ⟨rfl, fun _ => rfl, fun _ => rfl, rfl, rfl, rfl, rfl, rfl⟩

theorem SameEntries.trans {s'' : State} (h : SameEntries s s')
    (h' : SameEntries s' s'') : SameEntries s s'' :=
  ⟨h'.zero.trans h.zero, fun j => (h'.fd j).trans (h.fd j),
    fun j => (h'.revents j).trans (h.revents j),
    h'.user_counter.trans h.user_counter,
    h'.connections.trans h.connections, h'.polled.trans h.polled,
    h'.polledCounter.trans h.polledCounter, h'.handled.trans h.handled⟩

theorem SameEntries.inv (hs : SameEntries s s') (h : Inv listenfd s) :
    Inv listenfd s' where
  listening := by rw [hs.zero]; exact h.listening
  nonneg := by rw [hs.user_counter]; exact h.nonneg
  le_limit := by rw [hs.user_counter]; exact h.le_limit
  distinct := by simpa only [hs.user_counter, hs.fd] using h.distinct
  connected := by
    simpa only [hs.user_counter, hs.fd, hs.connections] using h.connected
  events := by rw [hs.zero]; exact h.events
  apart := by rw [hs.connections]; exact h.apart

theorem SameEntries.pass (hs : SameEntries s s') (h : Pass s i) :
    Pass s' i where
  nonneg := h.nonneg
  quiet := by rw [hs.zero]; exact h.quiet
  start := by rw [hs.handled]; exact h.start
  entries := by
    have htimes : ∀ fd, times s' fd = times s fd := by
      intro fd
      rw [times, times, hs.handled]
    simpa only [Done, Ahead, htimes, hs.user_counter, hs.fd, hs.revents,
      hs.polled, hs.polledCounter] using h.entries

/-- Changing the requested events of an entry other than the first. -/
theorem sameEntries_events {j fd : Int} {events : Finset Poll}
    {c : ClientData} (hj : j ≠ 0) :
    SameEntries s ((s.setFd j { s.fds j with
      events := events }).setUser fd c) where
  zero := Function.update_of_ne hj.symm _ s.fds
  fd := by
    intro k
    change (Function.update s.fds j _ k).fd = _
    by_cases hkj : k = j
    · rw [hkj, Function.update_self]
    · rw [Function.update_of_ne hkj]
  revents := by
    intro k
    change (Function.update s.fds j _ k).revents = _
    by_cases hkj : k = j
    · rw [hkj, Function.update_self]
    · rw [Function.update_of_ne hkj]
  user_counter := rfl
  connections := rfl
  polled := rfl
  polledCounter := rfl
  handled := rfl

theorem sameEntries_offerAll {connfd : Int} :
    SameEntries s (s.offerAll connfd) := by
  rw [State.offerAll]
  generalize List.range s.user_counter.toNat = js
  induction js generalizing s with
  | nil => exact SameEntries.refl s
  | cons j js ih =>
      refine SameEntries.trans ?_ ih
      change SameEntries s (s.offer connfd ((j : Int) + 1))
      rw [State.offer]
      split
      · exact SameEntries.refl s
      · exact sameEntries_events (by omega)

/-! ## One step -/

/-- The listening socket is only ever reported readable or in error. -/
theorem Pass.pos (h : Pass s i) (hinv : Inv listenfd s)
    (hother : ¬ ((s.fds i).fd = listenfd ∧ POLLIN ∈ (s.fds i).revents))
    {p : Poll} (hp : p ∈ (s.fds i).revents)
    (hcase : p = POLLRDHUP ∨ p = POLLIN ∨ p = POLLOUT) : 1 ≤ i := by
  by_contra hlt
  have hzero : i = 0 := by have := h.nonneg; omega
  subst hzero
  rcases hcase with rfl | rfl | rfl
  · exact h.quiet.1 hp
  · exact hother ⟨hinv.listening, hp⟩
  · exact h.quiet.2 hp

/-- A round of the inner loop. Only the entry of the listening socket accepts,
and only other entries are removed. -/
theorem Reached.handle (hinv : Inv listenfd s) (h : Pass s i)
    (hi : i ≤ s.user_counter) {accepted : Int} {received : Recv}
    (hlegal : 0 ≤ accepted → accepted ≠ listenfd ∧ accepted ∉ s.connections) :
    Reached listenfd
      ((s.visits i).handle listenfd i accepted received) := by
  have hinv' : Inv listenfd (s.visits i) := hinv.visits
  have hpass := h.visits hinv hi
  have hskip : Reached listenfd ((s.visits i).next (i + 1)) :=
    Reached.next hinv' hpass
  have hremove : 1 ≤ i →
      Reached listenfd (((s.visits i).remove i).next (i - 1 + 1)) := by
    intro hpos
    rw [Int.sub_add_cancel]
    exact Reached.next (hinv'.remove hpos hi) (hpass.remove hpos hi)
  rw [State.handle.eq_def]
  split
  · next hlisten =>
      have hzero : i = 0 := hinv.inj h.nonneg hi (Int.le_refl 0) hinv.nonneg
        (hlisten.1.trans hinv.listening.symm)
      split
      · exact hskip
      · split
        · exact hskip
        · next hacc hroom =>
            obtain ⟨hnew, hclosed⟩ := hlegal (by omega)
            have hroom' : s.user_counter < USER_LIMIT := by
              change ¬ USER_LIMIT ≤ s.user_counter at hroom
              omega
            refine Reached.next (hinv'.append hroom' hnew hclosed) ?_
            subst hzero
            refine hpass.append hinv' ?_ hnew
            intro e he
            change e ∈ s.handled ++ [_] at he
            rw [h.start rfl, List.nil_append, List.mem_singleton] at he
            rw [he]
            exact hinv.listening
  · next hother =>
      split
      · exact hskip
      · split
        · next hhup => exact hremove (h.pos hinv hother hhup (.inl rfl))
        · split
          · next hin =>
              have hpos := h.pos hinv hother hin (.inr (.inl rfl))
              cases received with
              | failed eagain =>
                  cases eagain with
                  | true => exact hskip
                  | false => exact hremove hpos
              | closed => exact hskip
              | data =>
                  exact Reached.next (sameEntries_offerAll.inv hinv')
                    (sameEntries_offerAll.pass hpass)
          · split
            · next hout =>
                have hpos := h.pos hinv hother hout (.inr (.inr rfl))
                have hsame : SameEntries (s.visits i)
                    ((s.visits i).written i) :=
                  sameEntries_events (by omega)
                exact Reached.next (hsame.inv hinv') (hsame.pass hpass)
            · exact hskip

/-- `poll` changes the `revents` of the entries it is given. -/
theorem Reached.poll (hinv : Inv listenfd s) {revents : Int → Finset Poll}
    (hlegal : Legal listenfd s (.poll revents)) :
    Reached listenfd (s.polls revents) := by
  have hfd : ∀ j, ((s.polls revents).fds j).fd = (s.fds j).fd := by
    intro j
    change (if _ then _ else _ : PollFd).fd = _
    split <;> rfl
  have hzero : (s.polls revents).fds 0 = { s.fds 0 with
      revents := revents 0 } :=
    if_pos ⟨Int.le_refl 0, hinv.nonneg⟩
  have hinv' : Inv listenfd (s.polls revents) := by
    refine ⟨⟨(hfd 0).trans hinv.listening, hinv.nonneg, hinv.le_limit, ?_, ?_⟩,
      ?_, hinv.apart⟩
    · simp only [hfd]
      exact hinv.distinct
    · simp only [hfd]
      exact hinv.connected
    · rw [hzero]
      exact hinv.events
  have hsub := hlegal 0 (Int.le_refl 0) hinv.nonneg
  rw [hinv.events] at hsub
  have hpass : Pass (s.polls revents) 0 := by
    refine ⟨Int.le_refl 0, ?_, fun _ => rfl, ?_⟩
    · rw [hzero]
      exact ⟨fun h => absurd (hsub h) (by decide),
        fun h => absurd (hsub h) (by decide)⟩
    · intro k hk hku
      exact .inr ⟨rfl, k, hk, hku, rfl, rfl⟩
  exact Reached.next hinv' hpass

theorem Reached.step {a : Act} (h : Reached listenfd s)
    (hlegal : Legal listenfd s a)
    (hs : ChatServer.step listenfd s a = some s') : Reached listenfd s' := by
  cases a with
  | poll revents =>
      obtain ⟨-, ⟨⟩⟩ := Option.ite_none_right_eq_some.mp hs
      exact Reached.poll h.inv hlegal
  | pollFails =>
      obtain ⟨-, ⟨⟩⟩ := Option.ite_none_right_eq_some.mp hs
      exact ⟨⟨⟨h.inv.listening, h.inv.nonneg, h.inv.le_limit, h.inv.distinct,
        h.inv.connected⟩, h.inv.events, h.inv.apart⟩, nofun, nofun⟩
  | round accepted received =>
      rw [ChatServer.step] at hs
      split at hs
      · next i hpc =>
          cases hs
          obtain ⟨hi, hpass⟩ := h.pass i hpc
          exact Reached.handle h.inv hpass hi hlegal
      · cases hs
      · cases hs

/-! ## Whole runs -/

theorem reached_init {users : Int → ClientData} :
    Reached listenfd (init listenfd users) where
  inv := inv_init
  pass := nofun
  polled := by
    intro _ k hk hku
    change k ≤ -1 at hku
    omega

theorem table_handledOnce {users : Int → ClientData} {acts : List Act}
    (hlegal : Along (step listenfd) (Legal listenfd) (init listenfd users)
      acts)
    (hrun : exec (step listenfd) (init listenfd users) acts = some s) :
    Table listenfd s ∧ (s.pc = .poll → HandledOnce s) := by
  have h := exec_inv_along (fun _ _ _ h hg hs => h.step hg hs) reached_init
    hlegal hrun
  exact ⟨h.inv.toTable, h.polled⟩

/-- Two clients come; then the first one leaves, and the second one, moved to
the place of the first, sends data in the same pass. -/
def comeAndLeave : List Act :=
  [.poll fun _ => {POLLIN}, .round 7 .closed, .round (-1) .closed,
    .poll fun i => if i = 0 then {POLLIN} else ∅,
    .round 8 .closed, .round (-1) .closed, .round (-1) .closed,
    .poll fun i => if i = 0 then ∅ else if i = 1 then {POLLRDHUP}
      else {POLLIN},
    .round (-1) .closed, .round (-1) .closed, .round (-1) .data]

theorem table_handledOnce_leave : ∃ s : State,
    exec (step 3) (init 3 fun _ => ⟨none⟩) comeAndLeave = some s ∧
      s.handled = [(3, ∅), (7, {POLLRDHUP}), (8, {POLLIN})] ∧
      s.connections = {8} ∧ Table 3 s ∧ HandledOnce s := by
  have hrun : (exec (step 3) (init 3 fun _ => ⟨none⟩) comeAndLeave).map
      (fun s => (s.handled, s.connections, s.pc)) =
      some ([(3, ∅), (7, {POLLRDHUP}), (8, {POLLIN})], {8}, .poll) := by
    decide +kernel
  obtain ⟨s, hs, hres⟩ := Option.map_eq_some_iff.mp hrun
  simp only [Prod.mk.injEq] at hres
  obtain ⟨htable, hpass⟩ := @table_handledOnce 3 s _ comeAndLeave
    (by decide +kernel) hs
  exact ⟨s, hs, hres.1, hres.2.1, htable, hpass hres.2.2⟩

end LearningLinux.ChatServer
