import Mathlib.Data.List.TakeWhile
import LearningLinux.ChatServer.Table

/-!
# What the clients of the chat server get

The server with the contents of the buffers. A message is passed on by a
pointer to the buffer it was received into, one pointer for each client, and is
sent when the client can be written to. If by then the buffer has been used
again, or the pointer has been set to another buffer, the message is gone. The
result here says that it gets through if neither happens.

`buf` is the string in the buffer of a descriptor, up to the first NUL byte.
Two things are recorded and never read: the messages that arrived from others
while a client was connected, and those that were sent to it.
-/

namespace LearningLinux.ChatServer

open LearningLinux.Lib
open Poll

def BUFFER_SIZE : Nat := 64

abbrev Message := List UInt8

/-- The string that a buffer with these bytes holds. -/
def cString (bytes : List UInt8) : Message := bytes.takeWhile (· ≠ 0)

/-- What `recv` returns, with the data. -/
inductive Arrival where
  | failed (eagain : Bool)
  | closed
  | data (bytes : List UInt8)
deriving DecidableEq, Repr

def Arrival.recv : Arrival → Recv
  | .failed eagain => .failed eagain
  | .closed => .closed
  | .data _ => .data

structure Chat where
  srv : State
  buf : Int → Message
  owed : Int → List Message
  sent : Int → List Message

/-- The buffers are not initialised either. -/
def Chat.init (listenfd : Int) (users : Int → ClientData)
    (buf : Int → Message) : Chat :=
  ⟨ChatServer.init listenfd users, buf, fun _ => [], fun _ => []⟩

namespace Chat

/-- `memset`, and what `recv` writes behind it. -/
def setBuf (c : Chat) (fd : Int) (msg : Message) : Chat :=
  { c with
    buf := Function.update c.buf fd msg }

/-- `users[fds[i].fd] = users[fds[user_counter].fd]`, as to the buffers. -/
def copyLast (c : Chat) (i : Int) : Chat :=
  c.setBuf (c.srv.fds i).fd (c.buf (c.srv.fds c.srv.user_counter).fd)

/-- A new client has nothing to wait for. -/
def greet (c : Chat) (fd : Int) : Chat :=
  { c with
    owed := Function.update c.owed fd []
    sent := Function.update c.sent fd [] }

/-- Everybody else who is connected should get the message. -/
def owe (c : Chat) (fd : Int) (msg : Message) : Chat :=
  { c with
    owed := fun f => if f ∈ c.srv.connections ∧ f ≠ fd then c.owed f ++ [msg]
      else c.owed f }

/-- `send` takes the string `write_buf` points to. -/
def send (c : Chat) (fd : Int) : Chat :=
  match (c.srv.users fd).write_buf with
  | none => c
  | some x =>
      { c with
        sent := Function.update c.sent fd (c.sent fd ++ [c.buf x]) }

/-- What the round for entry `i` does to the buffers; the branches are those
of `State.handle`. -/
def transfer (listenfd : Int) (c : Chat) (i : Int) (accepted : Int)
    (arrival : Arrival) : Chat :=
  let entry := c.srv.fds i
  if entry.fd = listenfd ∧ POLLIN ∈ entry.revents then
    if accepted < 0 then c
    else if USER_LIMIT ≤ c.srv.user_counter then c
    else c.greet accepted
  else if POLLERR ∈ entry.revents then c
  else if POLLRDHUP ∈ entry.revents then c.copyLast i
  else if POLLIN ∈ entry.revents then
    match arrival with
    | .failed eagain =>
        if eagain then c.setBuf entry.fd []
        else (c.setBuf entry.fd []).copyLast i
    | .closed => c.setBuf entry.fd []
    | .data bytes => (c.setBuf entry.fd (cString bytes)).owe entry.fd bytes
  else if POLLOUT ∈ entry.revents then c.send entry.fd
  else c

def setSrv (c : Chat) (srv : State) : Chat :=
  { c with
    srv := srv }

end Chat

/-! ## Runs -/

inductive ChatAct where
  | poll (revents : Int → Finset Poll)
  | pollFails
  | round (accepted : Int) (arrival : Arrival)

/-- The part of an action that the table depends on. -/
def ChatAct.act : ChatAct → Act
  | .poll revents => .poll revents
  | .pollFails => .pollFails
  | .round accepted arrival => .round accepted arrival.recv

/-- What happens to the buffers. -/
def Chat.moved (listenfd : Int) (c : Chat) : ChatAct → Chat
  | .round accepted arrival =>
      match c.srv.pc with
      | .pass i => c.transfer listenfd i accepted arrival
      | .poll | .stopped => c
  | .poll _ | .pollFails => c

def Chat.step (listenfd : Int) (c : Chat) (a : ChatAct) : Option Chat :=
  (ChatServer.step listenfd c.srv a.act).map fun srv =>
    (c.moved listenfd a).setSrv srv

/-- What comes in fits into the buffer and has no NUL byte. -/
def ChatAct.Clean : ChatAct → Prop
  | .round _ (.data bytes) =>
      bytes ≠ [] ∧ bytes.length ≤ BUFFER_SIZE - 1 ∧ 0 ∉ bytes
  | _ => True

/-! ## What is wanted -/

/-- Entry `j` has output waiting, in the buffer of `x`. -/
def Chat.Waits (c : Chat) (j x : Int) : Prop :=
  POLLOUT ∈ (c.srv.fds j).events ∧
    (c.srv.users (c.srv.fds j).fd).write_buf = some x

/-- What entry `j` is going to be sent. -/
def Chat.pending (c : Chat) (j : Int) : List Message :=
  if POLLOUT ∈ (c.srv.fds j).events then
    (c.srv.users (c.srv.fds j).fd).write_buf.toList.map c.buf
  else []

/-- Every client has been sent, in order, all that arrived from others since
it is connected, but for what is pending. -/
def Delivered (c : Chat) : Prop :=
  ∀ j, 1 ≤ j → j ≤ c.srv.user_counter →
    c.owed (c.srv.fds j).fd = c.sent (c.srv.fds j).fd ++ c.pending j

/-- The round for entry `i` calls `recv`. -/
def Reads (listenfd : Int) (s : State) (i : Int) : Prop :=
  ¬ ((s.fds i).fd = listenfd ∧ POLLIN ∈ (s.fds i).revents) ∧
    POLLERR ∉ (s.fds i).revents ∧ POLLRDHUP ∉ (s.fds i).revents ∧
    POLLIN ∈ (s.fds i).revents

/-- The round for entry `i` closes the connection that was hung up. -/
def HangsUp (listenfd : Int) (s : State) (i : Int) : Prop :=
  ¬ ((s.fds i).fd = listenfd ∧ POLLIN ∈ (s.fds i).revents) ∧
    POLLERR ∉ (s.fds i).revents ∧ POLLRDHUP ∈ (s.fds i).revents

/-- The round for entry `i` calls `send`. -/
def Writes (listenfd : Int) (s : State) (i : Int) : Prop :=
  ¬ ((s.fds i).fd = listenfd ∧ POLLIN ∈ (s.fds i).revents) ∧
    POLLERR ∉ (s.fds i).revents ∧ POLLRDHUP ∉ (s.fds i).revents ∧
    POLLIN ∉ (s.fds i).revents ∧ POLLOUT ∈ (s.fds i).revents

/-- When entry `i` is read from, nothing waits in its buffer, and if data
comes, nothing waits for anybody else. -/
def Chat.ReadsSafely (c : Chat) (i : Int) (arrival : Arrival) : Prop :=
  (∀ j, 1 ≤ j → j ≤ c.srv.user_counter → ¬ c.Waits j (c.srv.fds i).fd) ∧
    (arrival.recv = .data → ∀ j, 1 ≤ j → j ≤ c.srv.user_counter → j ≠ i →
      POLLOUT ∉ (c.srv.fds j).events)

/-- When entry `i` has hung up and is not the last one, nothing waits in its
buffer for the others. -/
def Chat.HangsUpSafely (c : Chat) (i : Int) : Prop :=
  i ≠ c.srv.user_counter → ∀ j, 1 ≤ j → j ≤ c.srv.user_counter → j ≠ i →
    ¬ c.Waits j (c.srv.fds i).fd

/-- No buffer and no pointer is overwritten too early. -/
def Undisturbed (listenfd : Int) (c : Chat) : ChatAct → Prop
  | .round _ arrival =>
      match c.srv.pc with
      | .pass i => (Reads listenfd c.srv i → c.ReadsSafely i arrival) ∧
          (HangsUp listenfd c.srv i → c.HangsUpSafely i)
      | .poll | .stopped => True
  | .poll _ | .pollFails => True

section Decide

variable (listenfd : Int) (c : Chat) (i j x : Int)

instance : Decidable (c.Waits j x) := inferInstanceAs (Decidable (_ ∧ _))

instance : Decidable (Reads listenfd c.srv i) :=
  inferInstanceAs (Decidable (_ ∧ _))

instance : Decidable (HangsUp listenfd c.srv i) :=
  inferInstanceAs (Decidable (_ ∧ _))

instance (arrival : Arrival) : Decidable (c.ReadsSafely i arrival) :=
  inferInstanceAs (Decidable ((∀ j, 1 ≤ j → j ≤ c.srv.user_counter →
    ¬ c.Waits j (c.srv.fds i).fd) ∧ (arrival.recv = .data → ∀ j, 1 ≤ j →
      j ≤ c.srv.user_counter → j ≠ i → POLLOUT ∉ (c.srv.fds j).events)))

instance : Decidable (c.HangsUpSafely i) :=
  inferInstanceAs (Decidable (i ≠ c.srv.user_counter → ∀ j, 1 ≤ j →
    j ≤ c.srv.user_counter → j ≠ i → ¬ c.Waits j (c.srv.fds i).fd))

instance : ∀ a, Decidable (Undisturbed listenfd c a)
  | .round _ arrival =>
      match h : c.srv.pc with
      | .pass i => decidable_of_iff
          ((Reads listenfd c.srv i → c.ReadsSafely i arrival) ∧
            (HangsUp listenfd c.srv i → c.HangsUpSafely i))
          (by rw [Undisturbed, h])
      | .poll => decidable_of_iff True (by rw [Undisturbed, h])
      | .stopped => decidable_of_iff True (by rw [Undisturbed, h])
  | .poll _ => inferInstanceAs (Decidable True)
  | .pollFails => inferInstanceAs (Decidable True)

end Decide

/-! ## The invariant -/

/-- Entries that are still to come are only reported writable if they have
asked for it. -/
def Armed (s : State) (i : Int) : Prop :=
  ∀ j, i ≤ j → j ≤ s.user_counter → POLLOUT ∈ (s.fds j).revents →
    POLLOUT ∈ (s.fds j).events

/-- Who has asked to be written to has something to get, and nothing is
lost. -/
structure Held (c : Chat) : Prop where
  pointed : ∀ j, 1 ≤ j → j ≤ c.srv.user_counter →
    POLLOUT ∈ (c.srv.fds j).events →
    ∃ x, (c.srv.users (c.srv.fds j).fd).write_buf = some x
  delivered : Delivered c

variable {listenfd : Int} {c c' : Chat} {i : Int}

theorem pending_eq {j j' : Int}
    (hfd : (c'.srv.fds j').fd = (c.srv.fds j).fd)
    (hev : POLLOUT ∈ (c'.srv.fds j').events ↔
      POLLOUT ∈ (c.srv.fds j).events)
    (huser : c'.srv.users (c.srv.fds j).fd = c.srv.users (c.srv.fds j).fd)
    (hbuf : ∀ x, c.Waits j x → c'.buf x = c.buf x) :
    c'.pending j' = c.pending j := by
  rw [Chat.pending, Chat.pending, hfd, huser]
  by_cases hout : POLLOUT ∈ (c.srv.fds j).events
  · rw [if_pos hout, if_pos (hev.mpr hout)]
    cases hx : (c.srv.users (c.srv.fds j).fd).write_buf with
    | none => rfl
    | some x =>
        have hsame := hbuf x ⟨hout, hx⟩
        simp only [Option.toList_some, List.map_cons, List.map_nil, hsame]
  · rw [if_neg hout, if_neg (mt hev.mp hout)]

theorem pending_of_waits {j x : Int} (h : c.Waits j x) :
    c.pending j = [c.buf x] := by
  rw [Chat.pending, if_pos h.1, h.2]
  rfl

theorem pending_of_idle {j : Int} (h : POLLOUT ∉ (c.srv.fds j).events) :
    c.pending j = [] :=
  if_neg h

/-! ## The branches -/

theorem Armed.skip {s : State} (h : Armed s i) : Armed s (i + 1) :=
  fun j hj => h j (by omega)

/-- A buffer in which nothing waits may be written to. -/
theorem Held.setBuf (h : Held c) {x : Int} (msg : Message)
    (hfree : ∀ j, 1 ≤ j → j ≤ c.srv.user_counter → ¬ c.Waits j x) :
    Held (c.setBuf x msg) := by
  refine ⟨h.pointed, ?_⟩
  intro j hj hju
  have hpending : (c.setBuf x msg).pending j = c.pending j := by
    refine pending_eq rfl Iff.rfl rfl ?_
    intro y hy
    have hne : y ≠ x := fun heq => hfree j hj hju (heq ▸ hy)
    exact Function.update_of_ne hne ..
  rw [hpending]
  exact h.delivered j hj hju

theorem append_last_idle {s : State} {connfd : Int} :
    POLLOUT ∉ ((s.append connfd).fds (s.user_counter + 1)).events := by
  rw [fds_append_last]
  show POLLOUT ∉ ({POLLIN, POLLRDHUP, POLLERR} : Finset Poll)
  decide

theorem Held.append (h : Held c) (hinv : Inv listenfd c.srv) {connfd : Int}
    (hclosed : connfd ∉ c.srv.connections) :
    Held ((c.greet connfd).setSrv (c.srv.append connfd)) := by
  have hold {j : Int} (hj : 1 ≤ j) (hju : j ≤ c.srv.user_counter) :
      (c.srv.fds j).fd ≠ connfd := fun heq =>
    hclosed ((hinv.connected connfd).mpr ⟨j, hj, hju, heq⟩)
  refine ⟨?_, ?_⟩
  · intro j hj hju
    change j ≤ c.srv.user_counter + 1 at hju
    show POLLOUT ∈ ((c.srv.append connfd).fds j).events →
      ∃ x, (c.srv.users ((c.srv.append connfd).fds j).fd).write_buf = some x
    by_cases hlast : j = c.srv.user_counter + 1
    · intro hout
      rw [hlast] at hout
      exact absurd hout append_last_idle
    · rw [fds_append (by omega)]
      exact h.pointed j hj (by omega)
  · intro j hj hju
    change j ≤ c.srv.user_counter + 1 at hju
    show Function.update c.owed connfd [] ((c.srv.append connfd).fds j).fd =
      Function.update c.sent connfd [] ((c.srv.append connfd).fds j).fd ++ _
    by_cases hlast : j = c.srv.user_counter + 1
    · have hidle : POLLOUT ∉ (((c.greet connfd).setSrv
          (c.srv.append connfd)).srv.fds j).events := by
        show POLLOUT ∉ ((c.srv.append connfd).fds j).events
        rw [hlast]
        exact append_last_idle
      rw [pending_of_idle hidle, hlast, fds_append_last]
      simp only [Function.update_self, List.append_nil]
    · have hju' : j ≤ c.srv.user_counter := by omega
      have hsame : (c.srv.append connfd).fds j = c.srv.fds j :=
        fds_append hju'
      have hpending : ((c.greet connfd).setSrv
          (c.srv.append connfd)).pending j = c.pending j := by
        refine pending_eq ?_ ?_ rfl fun _ _ => rfl
        · exact congrArg PollFd.fd hsame
        · show POLLOUT ∈ ((c.srv.append connfd).fds j).events ↔ _
          rw [hsame]
      rw [hpending, hsame, Function.update_of_ne (hold hj hju'),
        Function.update_of_ne (hold hj hju')]
      exact h.delivered j hj hju'

theorem Armed.append {s : State} {connfd : Int} (h : Armed s i) :
    Armed (s.append connfd) (i + 1) := by
  intro j hj hju
  change j ≤ s.user_counter + 1 at hju
  by_cases hlast : j = s.user_counter + 1
  · rw [hlast, fds_append_last]
    intro hout
    exact absurd hout (Finset.notMem_empty _)
  · rw [fds_append (by omega)]
    exact h j (by omega) (by omega)

/-- An entry is removed, after its buffer has been written to. -/
theorem Held.remove (h : Held c) (hinv : Inv listenfd c.srv) (hi : 1 ≤ i)
    (hiu : i ≤ c.srv.user_counter) {buf : Int → Message}
    (hbuf : ∀ j x, 1 ≤ j → j ≤ c.srv.user_counter → j ≠ i → c.Waits j x →
      buf x = c.buf x) :
    Held ⟨c.srv.remove i, buf, c.owed, c.sent⟩ := by
  have horigin {j : Int} (hj : 1 ≤ j) (hju : j ≤ c.srv.user_counter - 1) :
      ∃ m, 1 ≤ m ∧ m ≤ c.srv.user_counter ∧ m ≠ i ∧
        (c.srv.remove i).fds j = c.srv.fds m ∧
        (c.srv.remove i).users (c.srv.fds m).fd =
          c.srv.users (c.srv.fds m).fd := by
    obtain ⟨hmu, hmi, -, hm⟩ := origin_spec (i := i) hju
    refine ⟨c.srv.origin i j, hm hi hj, hmu, hmi, fds_remove, ?_⟩
    exact Function.update_of_ne (hinv.fd_ne (hm hi hj) hmu hi hiu hmi) ..
  refine ⟨?_, ?_⟩
  · intro j hj hju
    obtain ⟨m, hm, hmu, -, hfds, husers⟩ := horigin hj hju
    show POLLOUT ∈ ((c.srv.remove i).fds j).events →
      ∃ x, ((c.srv.remove i).users
        ((c.srv.remove i).fds j).fd).write_buf = some x
    rw [hfds, husers]
    exact h.pointed m hm hmu
  · intro j hj hju
    obtain ⟨m, hm, hmu, hmi, hfds, husers⟩ := horigin hj hju
    have hpending : Chat.pending ⟨c.srv.remove i, buf, c.owed, c.sent⟩ j =
        c.pending m := by
      refine pending_eq ?_ ?_ husers fun x hx => hbuf m x hm hmu hmi hx
      · exact congrArg PollFd.fd hfds
      · show POLLOUT ∈ ((c.srv.remove i).fds j).events ↔ _
        rw [hfds]
    rw [hpending]
    show c.owed ((c.srv.remove i).fds j).fd =
      c.sent ((c.srv.remove i).fds j).fd ++ _
    rw [hfds]
    exact h.delivered m hm hmu

theorem Armed.remove {s : State} (h : Armed s i) : Armed (s.remove i) i := by
  intro j hj hju
  obtain ⟨hmu, -, hm, -⟩ := origin_spec (i := i) hju
  rw [fds_remove]
  exact h _ (by have := hm hj; omega) hmu

section Offer

variable {s s' : State} {connfd : Int}

/-- What the loop over the other clients, or a part of it, leaves. -/
structure Offered (connfd : Int) (s s' : State) (js : List Nat) : Prop where
  same : SameEntries s s'
  users : ∀ fd, s'.users fd = s.users fd ∨ s'.users fd = ⟨some connfd⟩
  keeps : ∀ j, POLLOUT ∈ (s.fds j).events → POLLOUT ∈ (s'.fds j).events
  sender : s'.users connfd = s.users connfd ∧
    ∀ j, (s.fds j).fd = connfd → s'.fds j = s.fds j
  others : ∀ j ∈ js, (s.fds ((j : Int) + 1)).fd ≠ connfd →
    POLLOUT ∈ (s'.fds ((j : Int) + 1)).events ∧
      s'.users (s.fds ((j : Int) + 1)).fd = ⟨some connfd⟩

theorem offered_nil (s : State) : Offered connfd s s [] :=
  ⟨SameEntries.refl s, fun _ => Or.inl rfl, fun _ h => h,
    ⟨rfl, fun _ _ => rfl⟩, nofun⟩

theorem offered_one (s : State) (j : Nat) :
    Offered connfd s (s.offer connfd ((j : Int) + 1)) [j] := by
  rw [State.offer]
  split
  · next heq =>
      refine ⟨SameEntries.refl s, fun _ => Or.inl rfl, fun _ h => h,
        ⟨rfl, fun _ _ => rfl⟩, ?_⟩
      intro m hm hne
      rw [List.mem_singleton.mp hm] at hne
      exact absurd heq hne
  · next hne =>
      refine ⟨sameEntries_events (by omega), ?_, ?_, ⟨?_, ?_⟩, ?_⟩
      · intro fd
        show Function.update s.users _ _ fd = _ ∨ _
        by_cases hfd : fd = (s.fds ((j : Int) + 1)).fd
        · right
          show Function.update s.users _ _ fd = _
          rw [hfd, Function.update_self]
        · left
          exact Function.update_of_ne hfd ..
      · intro m hm
        show POLLOUT ∈ (Function.update s.fds _ _ m).events
        by_cases hmj : m = (j : Int) + 1
        · rw [hmj, Function.update_self]
          exact Finset.mem_insert_self _ _
        · rw [Function.update_of_ne hmj]
          exact hm
      · exact Function.update_of_ne (Ne.symm hne) ..
      · intro m hm
        refine Function.update_of_ne ?_ ..
        rintro rfl
        exact hne hm
      · intro m hm _
        rw [List.mem_singleton.mp hm]
        refine ⟨?_, Function.update_self ..⟩
        show POLLOUT ∈ (Function.update s.fds _ _ _).events
        rw [Function.update_self]
        exact Finset.mem_insert_self _ _

theorem Offered.trans {s'' : State} {j : Nat} {js : List Nat}
    (h : Offered connfd s s' [j]) (h' : Offered connfd s' s'' js) :
    Offered connfd s s'' (j :: js) := by
  refine ⟨h.same.trans h'.same, ?_, fun m hm => h'.keeps m (h.keeps m hm),
    ⟨h'.sender.1.trans h.sender.1, ?_⟩, ?_⟩
  · intro fd
    rcases h'.users fd with hsame | hset
    · rw [hsame]
      exact h.users fd
    · exact Or.inr hset
  · intro m hm
    rw [h'.sender.2 m (by rw [h.same.fd]; exact hm), h.sender.2 m hm]
  · intro m hm hne
    rcases List.mem_cons.mp hm with rfl | hm
    · obtain ⟨hout, huser⟩ := h.others m List.mem_cons_self hne
      refine ⟨h'.keeps _ hout, ?_⟩
      rcases h'.users (s.fds ((m : Int) + 1)).fd with hsame | hset
      · rw [hsame, huser]
      · exact hset
    · have hrest := h'.others m hm (by rw [h.same.fd]; exact hne)
      rw [h.same.fd] at hrest
      exact hrest

theorem offered_all (s : State) (connfd : Int) :
    Offered connfd s (s.offerAll connfd)
      (List.range s.user_counter.toNat) := by
  rw [State.offerAll]
  generalize List.range s.user_counter.toNat = js
  induction js generalizing s with
  | nil => exact offered_nil s
  | cons j js ih => exact (offered_one s j).trans (ih _)

/-- The loop comes to every entry but the first. -/
theorem Offered.entry
    (h : Offered connfd s s' (List.range s.user_counter.toNat)) {j : Int}
    (hj : 1 ≤ j) (hju : j ≤ s.user_counter)
    (hne : (s.fds j).fd ≠ connfd) :
    POLLOUT ∈ (s'.fds j).events ∧ s'.users (s.fds j).fd = ⟨some connfd⟩ := by
  have hcast : (((j - 1).toNat : Nat) : Int) + 1 = j := by omega
  have hentry := h.others (j - 1).toNat (List.mem_range.mpr (by omega))
  rw [hcast] at hentry
  exact hentry hne

end Offer

/-- A message is offered to clients for whom nothing waits. -/
theorem Held.offerAll (h : Held c) (hinv : Inv listenfd c.srv) (hi : 1 ≤ i)
    (hiu : i ≤ c.srv.user_counter) {msg : Message}
    (hfree : ∀ j, 1 ≤ j → j ≤ c.srv.user_counter →
      ¬ c.Waits j (c.srv.fds i).fd)
    (hidle : ∀ j, 1 ≤ j → j ≤ c.srv.user_counter → j ≠ i →
      POLLOUT ∉ (c.srv.fds j).events) :
    Held (((c.setBuf (c.srv.fds i).fd msg).owe (c.srv.fds i).fd msg).setSrv
      (c.srv.offerAll (c.srv.fds i).fd)) := by
  have hoffer := offered_all c.srv (c.srv.fds i).fd
  have hcounter := hoffer.same.user_counter
  refine ⟨?_, ?_⟩
  · intro j hj hju
    change j ≤ (c.srv.offerAll (c.srv.fds i).fd).user_counter at hju
    rw [hcounter] at hju
    show POLLOUT ∈ ((c.srv.offerAll (c.srv.fds i).fd).fds j).events →
      ∃ x, ((c.srv.offerAll (c.srv.fds i).fd).users
        ((c.srv.offerAll (c.srv.fds i).fd).fds j).fd).write_buf = some x
    rw [hoffer.same.fd]
    by_cases hji : j = i
    · subst hji
      rw [hoffer.sender.1, hoffer.sender.2 j rfl]
      exact h.pointed j hj hju
    · intro _
      rw [(hoffer.entry hj hju (hinv.fd_ne hj hju hi hiu hji)).2]
      exact ⟨_, rfl⟩
  · intro j hj hju
    change j ≤ (c.srv.offerAll (c.srv.fds i).fd).user_counter at hju
    rw [hcounter] at hju
    show (if ((c.srv.offerAll (c.srv.fds i).fd).fds j).fd ∈
        c.srv.connections ∧ ((c.srv.offerAll (c.srv.fds i).fd).fds j).fd ≠
          (c.srv.fds i).fd
        then c.owed ((c.srv.offerAll (c.srv.fds i).fd).fds j).fd ++ [msg]
        else c.owed ((c.srv.offerAll (c.srv.fds i).fd).fds j).fd) =
      c.sent ((c.srv.offerAll (c.srv.fds i).fd).fds j).fd ++ _
    rw [hoffer.same.fd]
    have hold := h.delivered j hj hju
    by_cases hji : j = i
    · subst hji
      rw [if_neg (fun hand => hand.2 rfl)]
      refine hold.trans (congrArg _ (Eq.symm ?_))
      refine pending_eq (hoffer.same.fd j) ?_ hoffer.sender.1 ?_
      · show POLLOUT ∈ ((c.srv.offerAll (c.srv.fds j).fd).fds j).events ↔ _
        rw [hoffer.sender.2 j rfl]
      · intro x hx
        have hne : x ≠ (c.srv.fds j).fd :=
          fun heq => hfree j hj hju (heq ▸ hx)
        exact Function.update_of_ne hne ..
    · have hne := hinv.fd_ne hj hju hi hiu hji
      obtain ⟨hout, huser⟩ := hoffer.entry hj hju hne
      have hwaits : Chat.Waits (((c.setBuf (c.srv.fds i).fd msg).owe
          (c.srv.fds i).fd msg).setSrv (c.srv.offerAll (c.srv.fds i).fd)) j
            (c.srv.fds i).fd := by
        refine ⟨hout, ?_⟩
        show ((c.srv.offerAll (c.srv.fds i).fd).users
          ((c.srv.offerAll (c.srv.fds i).fd).fds j).fd).write_buf = _
        rw [hoffer.same.fd, huser]
      have hbuf : Function.update c.buf (c.srv.fds i).fd msg
          (c.srv.fds i).fd = msg := Function.update_self ..
      rw [pending_of_idle (hidle j hj hju hji), List.append_nil] at hold
      rw [if_pos ⟨(hinv.connected _).mpr ⟨j, hj, hju, rfl⟩, hne⟩,
        pending_of_waits hwaits, hold]
      exact congrArg (fun m => c.sent (c.srv.fds j).fd ++ [m]) hbuf.symm

theorem Armed.offerAll {s : State} {connfd : Int} (h : Armed s i) :
    Armed (s.offerAll connfd) (i + 1) := by
  have hoffer := offered_all s connfd
  intro j hj hju hout
  rw [hoffer.same.user_counter] at hju
  rw [hoffer.same.revents] at hout
  exact hoffer.keeps j (h j (by omega) hju hout)

/-- What waits for a client is sent. -/
theorem Held.written (h : Held c) (hinv : Inv listenfd c.srv) (hi : 1 ≤ i)
    (hiu : i ≤ c.srv.user_counter)
    (hout : POLLOUT ∈ (c.srv.fds i).events) :
    Held ((c.send (c.srv.fds i).fd).setSrv (c.srv.written i)) ∧
      (c.send (c.srv.fds i).fd).sent (c.srv.fds i).fd =
        c.owed (c.srv.fds i).fd := by
  obtain ⟨x, hx⟩ := h.pointed i hi hiu hout
  have hsend : c.send (c.srv.fds i).fd = { c with
      sent := Function.update c.sent (c.srv.fds i).fd
        (c.sent (c.srv.fds i).fd ++ [c.buf x]) } := by
    rw [Chat.send, hx]
  have hflushed : c.owed (c.srv.fds i).fd =
      c.sent (c.srv.fds i).fd ++ [c.buf x] := by
    rw [h.delivered i hi hiu, pending_of_waits ⟨hout, hx⟩]
  have hfds {j : Int} (hji : j ≠ i) :
      (c.srv.written i).fds j = c.srv.fds j :=
    Function.update_of_ne hji ..
  have hself : ((c.srv.written i).fds i).fd = (c.srv.fds i).fd ∧
      POLLOUT ∉ ((c.srv.written i).fds i).events := by
    have heq : (c.srv.written i).fds i = { c.srv.fds i with
        events := insert POLLIN ((c.srv.fds i).events.erase POLLOUT) } :=
      Function.update_self ..
    rw [heq]
    refine ⟨rfl, ?_⟩
    simp
  refine ⟨⟨?_, ?_⟩, ?_⟩
  · intro j hj hju
    show POLLOUT ∈ ((c.srv.written i).fds j).events →
      ∃ x, ((c.srv.written i).users
        ((c.srv.written i).fds j).fd).write_buf = some x
    by_cases hji : j = i
    · subst hji
      intro hin
      exact absurd hin hself.2
    · rw [hfds hji]
      intro hin
      rw [show (c.srv.written i).users (c.srv.fds j).fd =
        c.srv.users (c.srv.fds j).fd from
          Function.update_of_ne (hinv.fd_ne hj hju hi hiu hji) ..]
      exact h.pointed j hj hju hin
  · rw [hsend]
    intro j hj hju
    show c.owed ((c.srv.written i).fds j).fd =
      Function.update c.sent (c.srv.fds i).fd _
        ((c.srv.written i).fds j).fd ++ _
    by_cases hji : j = i
    · subst hji
      rw [pending_of_idle hself.2, hself.1, Function.update_self,
        List.append_nil]
      exact hflushed
    · rw [hfds hji, Function.update_of_ne (hinv.fd_ne hj hju hi hiu hji)]
      refine (h.delivered j hj hju).trans (congrArg _ (Eq.symm ?_))
      refine pending_eq ?_ ?_ ?_ fun _ _ => rfl
      · exact congrArg PollFd.fd (hfds hji)
      · show POLLOUT ∈ ((c.srv.written i).fds j).events ↔ _
        rw [hfds hji]
      · exact Function.update_of_ne (hinv.fd_ne hj hju hi hiu hji) ..
  · rw [hsend, hflushed]
    exact Function.update_self ..

theorem Armed.written {s : State} (h : Armed s i) :
    Armed (s.written i) (i + 1) := by
  intro j hj hju
  rw [show (s.written i).fds j = s.fds j from
    Function.update_of_ne (by omega) ..]
  exact h j (by omega) hju

/-! ## One step -/

structure Mail (listenfd : Int) (c : Chat) : Prop where
  reached : Reached listenfd c.srv
  held : Held c
  armed : ∀ i, c.srv.pc = .pass i → Armed c.srv i

/-- The round goes on to entry `i`. -/
theorem goes_on {s : State} (hheld : Held (c.setSrv s)) (harmed : Armed s i) :
    Held (c.setSrv (s.next i)) ∧
      ∀ m, (s.next i).pc = .pass m → Armed (s.next i) m := by
  refine ⟨⟨hheld.pointed, hheld.delivered⟩, ?_⟩
  intro m hm
  change (if i < s.user_counter + 1 then Pc.pass i else .poll) = _ at hm
  split at hm
  · cases hm
    exact harmed
  · cases hm

theorem transfer_reads (h : Reads listenfd c.srv i) (accepted : Int)
    (arrival : Arrival) : c.transfer listenfd i accepted arrival =
      match arrival with
      | .failed eagain =>
          if eagain then c.setBuf (c.srv.fds i).fd []
          else (c.setBuf (c.srv.fds i).fd []).copyLast i
      | .closed => c.setBuf (c.srv.fds i).fd []
      | .data bytes => (c.setBuf (c.srv.fds i).fd (cString bytes)).owe
          (c.srv.fds i).fd bytes :=
  (if_neg h.1).trans ((if_neg h.2.1).trans ((if_neg h.2.2.1).trans
    (if_pos h.2.2.2)))

theorem handle_reads (h : Reads listenfd c.srv i) (accepted : Int)
    (arrival : Arrival) :
    (c.srv.visits i).handle listenfd i accepted arrival.recv =
      match arrival with
      | .failed eagain =>
          if eagain then (c.srv.visits i).next (i + 1)
          else ((c.srv.visits i).remove i).next (i - 1 + 1)
      | .closed => (c.srv.visits i).next (i + 1)
      | .data _ =>
          ((c.srv.visits i).offerAll (c.srv.fds i).fd).next (i + 1) := by
  refine (if_neg h.1).trans ((if_neg h.2.1).trans ((if_neg h.2.2.1).trans
    ((if_pos h.2.2.2).trans ?_)))
  cases arrival <;> rfl

/-- `send` does not depend on what the pass has come to. -/
theorem send_setSrv (s : State) (fd : Int) :
    ((c.setSrv (c.srv.visits i)).send fd).setSrv s = (c.send fd).setSrv s := by
  have huser : (c.setSrv (c.srv.visits i)).srv.users fd = c.srv.users fd := rfl
  rw [Chat.send, Chat.send, huser]
  cases (c.srv.users fd).write_buf <;> rfl

/-- The round of `recv`. -/
theorem Mail.receives (h : Mail listenfd c) (hpc : c.srv.pc = .pass i)
    {accepted : Int} {arrival : Arrival} (hreads : Reads listenfd c.srv i)
    (hclean : ChatAct.Clean (.round accepted arrival))
    (hsafe : Undisturbed listenfd c (.round accepted arrival)) :
    ∃ c₁ s₁ m, c.transfer listenfd i accepted arrival = c₁ ∧
      (c.srv.visits i).handle listenfd i accepted arrival.recv =
        State.next s₁ m ∧ Held (c₁.setSrv s₁) ∧ Armed s₁ m := by
  obtain ⟨hiu, hpass⟩ := h.reached.pass i hpc
  have hinv := h.reached.inv
  have harmed : Armed (c.srv.visits i) i := h.armed i hpc
  rw [Undisturbed, hpc] at hsafe
  obtain ⟨hfree, hidle⟩ := hsafe.1 hreads
  have hpos := hpass.pos hinv hreads.1 hreads.2.2.2 (.inr (.inl rfl))
  have htransfer := transfer_reads hreads accepted arrival
  have hhandle := handle_reads hreads accepted arrival
  have hheld : Held (c.setSrv (c.srv.visits i)) :=
    ⟨h.held.pointed, h.held.delivered⟩
  -- `memset` clears a buffer in which nothing waits
  have hcleared : Held ((c.setSrv (c.srv.visits i)).setBuf
      (c.srv.fds i).fd []) := hheld.setBuf [] hfree
  cases arrival with
  | failed eagain =>
      cases eagain with
      | true => exact ⟨_, _, _, htransfer, hhandle, hcleared, harmed.skip⟩
      | false =>
          refine ⟨_, _, _, htransfer, hhandle, ?_, ?_⟩
          · refine hheld.remove hinv.visits hpos hiu ?_
            intro j x hj hju hji hx
            have hne : x ≠ (c.srv.fds i).fd :=
              fun heq => hfree j hj hju (heq ▸ hx)
            exact (Function.update_of_ne hne ..).trans
              (Function.update_of_ne hne ..)
          · rw [Int.sub_add_cancel]
            exact harmed.remove
  | closed => exact ⟨_, _, _, htransfer, hhandle, hcleared, harmed.skip⟩
  | data bytes =>
      have hstring : cString bytes = bytes := by
        rw [cString, List.takeWhile_eq_self_iff]
        intro b hb
        have hne : b ≠ 0 := fun heq => hclean.2.2 (heq ▸ hb)
        simpa using hne
      simp only [hstring] at htransfer
      refine ⟨_, _, _, htransfer, hhandle, ?_, harmed.offerAll⟩
      exact hheld.offerAll hinv.visits hpos hiu hfree (hidle rfl)

/-- The round of a connection that was hung up. -/
theorem Mail.hangsUp (h : Mail listenfd c) (hpc : c.srv.pc = .pass i)
    {accepted : Int} {arrival : Arrival} (hhang : HangsUp listenfd c.srv i)
    (hsafe : Undisturbed listenfd c (.round accepted arrival)) :
    Held ((c.copyLast i).setSrv ((c.srv.visits i).remove i)) ∧
      Armed ((c.srv.visits i).remove i) i := by
  obtain ⟨hiu, hpass⟩ := h.reached.pass i hpc
  have hinv := h.reached.inv
  have harmed : Armed (c.srv.visits i) i := h.armed i hpc
  rw [Undisturbed, hpc] at hsafe
  have hfree := hsafe.2 hhang
  have hpos := hpass.pos hinv hhang.1 hhang.2.2 (.inl rfl)
  have hheld : Held (c.setSrv (c.srv.visits i)) :=
    ⟨h.held.pointed, h.held.delivered⟩
  refine ⟨?_, harmed.remove⟩
  refine hheld.remove hinv.visits hpos hiu ?_
  intro j x hj hju hji hx
  show Function.update c.buf (c.srv.fds i).fd
    (c.buf (c.srv.fds c.srv.user_counter).fd) x = c.buf x
  by_cases hx' : x = (c.srv.fds i).fd
  · by_cases hlast : i = c.srv.user_counter
    · rw [hx', Function.update_self, ← hlast]
    · exact absurd (hx' ▸ hx) (hfree hlast j hj hju hji)
  · exact Function.update_of_ne hx' ..

/-- What a round leaves of the buffers and the table. -/
theorem Mail.round (h : Mail listenfd c) (hpc : c.srv.pc = .pass i)
    {accepted : Int} {arrival : Arrival}
    (hlegal : 0 ≤ accepted →
      accepted ≠ listenfd ∧ accepted ∉ c.srv.connections)
    (hclean : ChatAct.Clean (.round accepted arrival))
    (hsafe : Undisturbed listenfd c (.round accepted arrival)) :
    ∃ c₁ s₁ m, c.transfer listenfd i accepted arrival = c₁ ∧
      (c.srv.visits i).handle listenfd i accepted arrival.recv =
        State.next s₁ m ∧ Held (c₁.setSrv s₁) ∧ Armed s₁ m := by
  obtain ⟨hiu, hpass⟩ := h.reached.pass i hpc
  have hinv := h.reached.inv
  have harmed : Armed (c.srv.visits i) i := h.armed i hpc
  have hheld : Held (c.setSrv (c.srv.visits i)) :=
    ⟨h.held.pointed, h.held.delivered⟩
  by_cases hlisten : (c.srv.fds i).fd = listenfd ∧
      POLLIN ∈ (c.srv.fds i).revents
  · by_cases hacc : accepted < 0
    · exact ⟨c, c.srv.visits i, i + 1,
        (if_pos hlisten).trans (if_pos hacc),
        (if_pos hlisten).trans (if_pos hacc), hheld, harmed.skip⟩
    · by_cases hfull : USER_LIMIT ≤ c.srv.user_counter
      · exact ⟨c, c.srv.visits i, i + 1,
          (if_pos hlisten).trans ((if_neg hacc).trans (if_pos hfull)),
          (if_pos hlisten).trans ((if_neg hacc).trans (if_pos hfull)), hheld,
          harmed.skip⟩
      · exact ⟨_, _, _,
          (if_pos hlisten).trans ((if_neg hacc).trans (if_neg hfull)),
          (if_pos hlisten).trans ((if_neg hacc).trans (if_neg hfull)),
          hheld.append hinv.visits (hlegal (by omega)).2, harmed.append⟩
  by_cases herr : POLLERR ∈ (c.srv.fds i).revents
  · exact ⟨c, c.srv.visits i, i + 1,
      (if_neg hlisten).trans (if_pos herr),
      (if_neg hlisten).trans (if_pos herr), hheld, harmed.skip⟩
  by_cases hhup : POLLRDHUP ∈ (c.srv.fds i).revents
  · obtain ⟨hheld', harmed'⟩ := h.hangsUp hpc ⟨hlisten, herr, hhup⟩ hsafe
    refine ⟨_, _, _,
      (if_neg hlisten).trans ((if_neg herr).trans (if_pos hhup)),
      (if_neg hlisten).trans ((if_neg herr).trans (if_pos hhup)), hheld', ?_⟩
    rw [Int.sub_add_cancel]
    exact harmed'
  by_cases hin : POLLIN ∈ (c.srv.fds i).revents
  · exact h.receives hpc ⟨hlisten, herr, hhup, hin⟩ hclean hsafe
  by_cases hout : POLLOUT ∈ (c.srv.fds i).revents
  · have hpos := hpass.pos hinv hlisten hout (.inr (.inr rfl))
    have hwritten := hheld.written hinv.visits hpos hiu
      (h.armed i hpc i (le_refl i) hiu hout)
    rw [send_setSrv] at hwritten
    exact ⟨_, _, _,
      (if_neg hlisten).trans ((if_neg herr).trans ((if_neg hhup).trans
        ((if_neg hin).trans (if_pos hout)))),
      (if_neg hlisten).trans ((if_neg herr).trans ((if_neg hhup).trans
        ((if_neg hin).trans (if_pos hout)))), hwritten.1, harmed.written⟩
  · exact ⟨c, c.srv.visits i, i + 1,
      (if_neg hlisten).trans ((if_neg herr).trans ((if_neg hhup).trans
        ((if_neg hin).trans (if_neg hout)))),
      (if_neg hlisten).trans ((if_neg herr).trans ((if_neg hhup).trans
        ((if_neg hin).trans (if_neg hout)))), hheld, harmed.skip⟩

/-- `poll` changes the `revents` only. -/
theorem polls_entry {s : State} (revents : Int → Finset Poll) (j : Int) :
    ((s.polls revents).fds j).fd = (s.fds j).fd ∧
      ((s.polls revents).fds j).events = (s.fds j).events := by
  change (if _ then _ else _ : PollFd).fd = _ ∧
    (if _ then _ else _ : PollFd).events = _
  split <;> exact ⟨rfl, rfl⟩

theorem Mail.poll (h : Mail listenfd c) {revents : Int → Finset Poll}
    (hlegal : Legal listenfd c.srv (.poll revents)) :
    Held (c.setSrv (c.srv.polls revents)) ∧
      Armed (c.srv.polls revents) 0 := by
  have hentry := polls_entry (s := c.srv) revents
  refine ⟨⟨?_, ?_⟩, ?_⟩
  · intro j hj hju
    show POLLOUT ∈ ((c.srv.polls revents).fds j).events →
      ∃ x, (c.srv.users ((c.srv.polls revents).fds j).fd).write_buf = some x
    rw [(hentry j).1, (hentry j).2]
    exact h.held.pointed j hj hju
  · intro j hj hju
    have hpending : (c.setSrv (c.srv.polls revents)).pending j =
        c.pending j := by
      refine pending_eq (hentry j).1 ?_ rfl fun _ _ => rfl
      show POLLOUT ∈ ((c.srv.polls revents).fds j).events ↔ _
      rw [(hentry j).2]
    rw [hpending]
    show c.owed ((c.srv.polls revents).fds j).fd =
      c.sent ((c.srv.polls revents).fds j).fd ++ _
    rw [(hentry j).1]
    exact h.held.delivered j hj hju
  · intro j hj hju hout
    have hrevents : ((c.srv.polls revents).fds j).revents = revents j :=
      congrArg PollFd.revents (if_pos ⟨hj, hju⟩)
    rw [hrevents] at hout
    rw [(hentry j).2]
    rcases Finset.mem_union.mp (hlegal j hj hju hout) with hasked | hmore
    · exact hasked
    · exact absurd hmore (by decide)

theorem Mail.step {a : ChatAct} (h : Mail listenfd c)
    (hlegal : Legal listenfd c.srv a.act) (hclean : a.Clean)
    (hsafe : Undisturbed listenfd c a)
    (hs : c.step listenfd a = some c') : Mail listenfd c' := by
  obtain ⟨srv, hsrv, rfl⟩ := Option.map_eq_some_iff.mp hs
  have hreached : Reached listenfd srv := h.reached.step hlegal hsrv
  cases a with
  | poll revents =>
      obtain ⟨-, ⟨⟩⟩ := Option.ite_none_right_eq_some.mp hsrv
      obtain ⟨hheld, harmed⟩ := h.poll hlegal
      refine ⟨hreached, hheld, ?_⟩
      intro i hi
      change (if 0 < c.srv.user_counter + 1 then Pc.pass 0 else .poll) = _
        at hi
      split at hi
      · cases hi
        exact harmed
      · cases hi
  | pollFails =>
      obtain ⟨-, ⟨⟩⟩ := Option.ite_none_right_eq_some.mp hsrv
      exact ⟨hreached, ⟨h.held.pointed, h.held.delivered⟩, nofun⟩
  | round accepted arrival =>
      cases hpc : c.srv.pc with
      | poll =>
          rw [ChatAct.act, ChatServer.step, hpc] at hsrv
          cases hsrv
      | stopped =>
          rw [ChatAct.act, ChatServer.step, hpc] at hsrv
          cases hsrv
      | pass i =>
          rw [ChatAct.act, ChatServer.step, hpc] at hsrv
          cases hsrv
          obtain ⟨c₁, s₁, m, htransfer, hhandle, hheld, harmed⟩ :=
            h.round hpc hlegal hclean hsafe
          have hmoved : c.moved listenfd (.round accepted arrival) = c₁ := by
            rw [Chat.moved, hpc]
            exact htransfer
          obtain ⟨hheld', harmed'⟩ := goes_on hheld harmed
          rw [hmoved]
          rw [hhandle] at hreached ⊢
          exact ⟨hreached, hheld', harmed'⟩

/-! ## Whole runs -/

theorem mail_init {users : Int → ClientData} {buf : Int → Message} :
    Mail listenfd (Chat.init listenfd users buf) := by
  refine ⟨reached_init, ⟨?_, ?_⟩, nofun⟩
  · intro j hj hju
    change j ≤ 0 at hju
    omega
  · intro j hj hju
    change j ≤ 0 at hju
    omega

/-- What the environment promises. -/
def Fair (listenfd : Int) (c : Chat) (a : ChatAct) : Prop :=
  Legal listenfd c.srv a.act ∧ a.Clean

instance : ∀ a : ChatAct, Decidable a.Clean
  | .round _ (.data bytes) => inferInstanceAs (Decidable
      (bytes ≠ [] ∧ bytes.length ≤ BUFFER_SIZE - 1 ∧ 0 ∉ bytes))
  | .round _ (.failed _) => inferInstanceAs (Decidable True)
  | .round _ .closed => inferInstanceAs (Decidable True)
  | .poll _ => inferInstanceAs (Decidable True)
  | .pollFails => inferInstanceAs (Decidable True)

instance (listenfd : Int) (c : Chat) (a : ChatAct) :
    Decidable (Fair listenfd c a) :=
  inferInstanceAs (Decidable (_ ∧ _))

theorem Mail.writes (h : Mail listenfd c) (hpc : c.srv.pc = .pass i)
    (hwrites : Writes listenfd c.srv i) {accepted : Int} {arrival : Arrival}
    (hs : c.step listenfd (.round accepted arrival) = some c') :
    c'.sent (c.srv.fds i).fd = c'.owed (c.srv.fds i).fd := by
  obtain ⟨srv, -, rfl⟩ := Option.map_eq_some_iff.mp hs
  obtain ⟨hlisten, herr, hhup, hin, hout⟩ := hwrites
  obtain ⟨hiu, hpass⟩ := h.reached.pass i hpc
  have hinv := h.reached.inv
  have hpos := hpass.pos hinv hlisten hout (.inr (.inr rfl))
  have hmoved : c.moved listenfd (.round accepted arrival) =
      c.send (c.srv.fds i).fd := by
    rw [Chat.moved, hpc]
    exact (if_neg hlisten).trans ((if_neg herr).trans ((if_neg hhup).trans
      ((if_neg hin).trans (if_pos hout))))
  have hsent := (h.held.written hinv hpos hiu
    (h.armed i hpc i (le_refl i) hiu hout)).2
  have howed : (c.send (c.srv.fds i).fd).owed = c.owed := by
    rw [Chat.send]
    split <;> rfl
  rw [hmoved]
  show (c.send (c.srv.fds i).fd).sent _ = (c.send (c.srv.fds i).fd).owed _
  rw [hsent, howed]

/-- In a run in which no buffer and no pointer is overwritten too early, every
client has at each moment been sent, once and in order, what others sent since
it is connected, but for what is pending; and when the server finds it
writable, nothing is pending any more. -/
theorem chat_delivers {users : Int → ClientData} {buf : Int → Message}
    {acts : List ChatAct} {c : Chat}
    (hrun : exec (Chat.step listenfd) (Chat.init listenfd users buf) acts =
      some c)
    (hfair : Along (Chat.step listenfd) (Fair listenfd)
      (Chat.init listenfd users buf) acts)
    (hsafe : Along (Chat.step listenfd) (Undisturbed listenfd)
      (Chat.init listenfd users buf) acts) :
    Delivered c ∧ ∀ i accepted arrival c', c.srv.pc = .pass i →
      Writes listenfd c.srv i →
      c.step listenfd (.round accepted arrival) = some c' →
      c'.sent (c.srv.fds i).fd = c'.owed (c.srv.fds i).fd := by
  have h : Mail listenfd c := exec_inv_along
    (fun _ _ _ h hg hs => h.step hg.1.1 hg.1.2 hg.2 hs) mail_init
    (along_and hfair hsafe) hrun
  exact ⟨h.held.delivered, fun i _ _ _ hpc hwrites hs =>
    h.writes hpc hwrites hs⟩

/-- The clients 7, 8 and 9 come, one after the other. -/
def threeCome : List ChatAct :=
  [ .poll fun _ => {POLLIN}, .round 7 .closed, .round (-1) .closed,
    .poll fun i => if i = 0 then {POLLIN} else ∅, .round 8 .closed,
    .round (-1) .closed, .round (-1) .closed,
    .poll fun i => if i = 0 then {POLLIN} else ∅, .round 9 .closed,
    .round (-1) .closed, .round (-1) .closed, .round (-1) .closed ]

/-- Everybody who waits is written to. -/
def allWritten : List ChatAct :=
  [ .poll fun i => if i = 0 then ∅ else {POLLOUT}, .round (-1) .closed,
    .round (-1) .closed, .round (-1) .closed, .round (-1) .closed ]

/-- The first client sends a message, which the two others get. -/
def oneSpeaks : List ChatAct :=
  threeCome ++
    [ ChatAct.poll fun i => if i = 1 then {POLLIN} else ∅,
      ChatAct.round (-1) .closed,
      ChatAct.round (-1) (.data [65, 10]), ChatAct.round (-1) .closed,
      ChatAct.round (-1) .closed,
      ChatAct.poll fun i => if i = 2 ∨ i = 3 then {POLLOUT} else ∅,
      ChatAct.round (-1) .closed, ChatAct.round (-1) .closed,
      ChatAct.round (-1) .closed,
      ChatAct.round (-1) .closed ]

def chatInit : Chat := Chat.init 3 (fun _ => ⟨none⟩) fun _ => []

theorem chat_delivers_one : ∃ c,
    exec (Chat.step 3) chatInit oneSpeaks = some c ∧
      c.sent 8 = [[65, 10]] ∧ c.sent 9 = [[65, 10]] ∧ Delivered c := by
  have hrun : (exec (Chat.step 3) chatInit oneSpeaks).map
      (fun c => (c.sent 8, c.sent 9)) = some ([[65, 10]], [[65, 10]]) := by
    decide +kernel
  obtain ⟨c, hc, hres⟩ := Option.map_eq_some_iff.mp hrun
  simp only [Prod.mk.injEq] at hres
  have hfair : Along (Chat.step 3) (Fair 3) chatInit oneSpeaks := by
    decide +kernel
  have hsafe : Along (Chat.step 3) (Undisturbed 3) chatInit oneSpeaks := by
    decide +kernel
  exact ⟨c, hc, hres.1, hres.2, (chat_delivers hc hfair hsafe).1⟩

/-- Two clients are readable when the server polls, and afterwards everybody
is written to. -/
def twoSpeak : List ChatAct :=
  threeCome ++
    [ ChatAct.poll fun i => if i = 1 ∨ i = 2 then {POLLIN} else ∅,
      ChatAct.round (-1) .closed, ChatAct.round (-1) (.data [65]),
      ChatAct.round (-1) (.data [66]),
      ChatAct.round (-1) .closed ] ++ allWritten

/-- The third client is still connected, nothing is pending for it, and it
never got the message of the first one. -/
theorem two_speak_loses : ∃ c, exec (Chat.step 3) chatInit twoSpeak = some c ∧
    Along (Chat.step 3) (Fair 3) chatInit twoSpeak ∧
      (c.srv.fds 3).fd = 9 ∧ c.srv.user_counter = 3 ∧ c.pending 3 = [] ∧
      c.owed 9 = [[65], [66]] ∧ c.sent 9 = [[66]] ∧ ¬ Delivered c := by
  have hrun : (exec (Chat.step 3) chatInit twoSpeak).map
      (fun c => ((c.srv.fds 3).fd, c.srv.user_counter,
        [c.pending 3, c.owed 9, c.sent 9])) =
          some (9, 3, [[], [[65], [66]], [[66]]]) := by
    decide +kernel
  obtain ⟨c, hc, hres⟩ := Option.map_eq_some_iff.mp hrun
  simp only [Prod.mk.injEq, List.cons.injEq, and_true] at hres
  obtain ⟨hfd, hcounter, hpending, howed, hsent⟩ := hres
  refine ⟨c, hc, by decide +kernel, hfd, hcounter, hpending, howed, hsent, ?_⟩
  intro h
  have hthird := h 3 (by decide) (by rw [hcounter])
  rw [hfd, howed, hsent, hpending] at hthird
  cases hthird

end LearningLinux.ChatServer
