import Mahimahi.Util.Poller

/-!
# Util — `DNSProxy::handle_tcp`

A TCP connection of a client is relayed to the name server: two `ByteStreamQueue`s, and a `Poller`
with four actions that fill and drain them.  Connecting to the server is left out.

* `relay_faithful`: whatever the two sockets do, no assertion fails, the poller sees no busy wait,
  and what went out at one end is what came in at the other, up to what is still queued.
* `relay_exits_iff`: unless a descriptor fails, the relay ends exactly when both ends have closed and
  every byte has been passed on.
-/

open Fallible

namespace Mahimahi

open ByteStreamQueue Poller Poller.Session

inductive RelayFault where
  /-- thrown by a `ByteStreamQueue`, or an assertion of it -/
  | queue (f : QueueFault)
  /-- `unix_error` -/
  | systemCall
  deriving DecidableEq, Repr

/-- What a socket does when it is next read or written. -/
structure SocketAnswer where
  /-- what is ready to be read, unless `read(2)` fails -/
  source : Option (List UInt8)
  /-- the bytes that there is room for, unless `write(2)` fails -/
  room : Option Nat
  deriving DecidableEq, Repr

/-- Each queue stands with all the bytes that were pushed and popped. -/
structure TcpRelay where
  fromClient : ByteStreamQueue.Log
  fromServer : ByteStreamQueue.Log
  client : FileDescriptor := {}
  dnsServer : FileDescriptor := {}

/-! ### The queues and the sockets -/

namespace ByteStreamQueue.Log

/-- `eof( queue.push( fd ) ) ? ResultType::Cancel : ResultType::Continue` -/
def pushFrom (k : SocketAnswer) (fd : FileDescriptor) (l : Log) :
    Except RelayFault (ActionResult × Log × FileDescriptor) :=
  match k.source with
  | some source => do
      let (chunk, queue) ← (l.queue.pushChunk source).mapError .queue
      let result := if chunk = [] then .cancels else .continues
      return (result, { l with queue, pushed := l.pushed ++ chunk }, fd.afterRead chunk)
  | none => do
      -- the assertions come before the `read(2)`
      let _ ← (l.queue.pushChunk []).mapError .queue
      throw .systemCall

/-- `queue.pop( fd )` -/
def popTo (k : SocketAnswer) (fd : FileDescriptor) (l : Log) :
    Except RelayFault (Log × FileDescriptor) :=
  match k.room with
  | some room => do
      let (str, queue) ← (l.queue.popChunk room).mapError .queue
      return ({ l with queue, popped := l.popped ++ str }, fd.afterWrites 1)
  | none => do
      let _ ← (l.queue.popChunk 1).mapError .queue
      throw .systemCall

end ByteStreamQueue.Log

namespace TcpRelay

abbrev RelaySession := Session RelayFault SocketAnswer TcpRelay

def serverIn (k : SocketAnswer) (r : TcpRelay) : Except RelayFault (ActionResult × TcpRelay) := do
  let (result, fromServer, dnsServer) ← r.fromServer.pushFrom k r.dnsServer
  return (result, { r with fromServer, dnsServer })

def clientIn (k : SocketAnswer) (r : TcpRelay) : Except RelayFault (ActionResult × TcpRelay) := do
  let (result, fromClient, client) ← r.fromClient.pushFrom k r.client
  return (result, { r with fromClient, client })

def serverOut (k : SocketAnswer) (r : TcpRelay) : Except RelayFault (ActionResult × TcpRelay) := do
  let (fromClient, dnsServer) ← r.fromClient.popTo k r.dnsServer
  return (.continues, { r with fromClient, dnsServer })

def clientOut (k : SocketAnswer) (r : TcpRelay) : Except RelayFault (ActionResult × TcpRelay) := do
  let (fromServer, client) ← r.fromServer.popTo k r.client
  return (.continues, { r with fromServer, client })

/-- The four actions.  Only the first two are ever cancelled. -/
def actions (serverActive clientActive : Bool) : List (Action RelayFault SocketAnswer TcpRelay) :=
  [{ fd := dnsServer, direction := .pollIn, callback := serverIn
     whenInterested := fun _ r => r.fromServer.queue.spaceAvailable, active := serverActive },
   { fd := client, direction := .pollIn, callback := clientIn
     whenInterested := fun _ r => r.fromClient.queue.spaceAvailable, active := clientActive },
   { fd := dnsServer, direction := .pollOut, callback := serverOut
     whenInterested := fun _ r => r.fromClient.queue.nonEmpty },
   { fd := client, direction := .pollOut, callback := clientOut
     whenInterested := fun _ r => r.fromServer.queue.nonEmpty }]

def BUFFER_SIZE : Nat := 1024 * 1024

/-- The thread of a connection, as far as it has come in `rounds` polls. -/
def handleTcp (rounds : List (Nat → Turn SocketAnswer)) :
    Except (PollFault RelayFault) (Option Nat × RelaySession) := do
  let fromClient ← (ofSize BUFFER_SIZE).mapError fun f => .callback (.queue f)
  let fromServer ← (ofSize BUFFER_SIZE).mapError fun f => .callback (.queue f)
  run loopStep rounds (none, {
    actions := actions true true
    state := { fromClient := { queue := fromClient }, fromServer := { queue := fromServer } } })

end TcpRelay

/-! ### One queue -/

namespace ByteStreamQueue

theorem nonEmpty_iff {q : ByteStreamQueue} (h : q.Valid) : q.nonEmpty = true ↔ q.held ≠ [] := by
  have hadd := h.available_add
  have hone := h.one_lt
  have hlength : q.held.length = q.availableToPop :=
    Ring.length_window _ h.pop_lt.le (by omega)
  rw [ne_eq, ← List.length_eq_zero_iff, hlength, nonEmpty, decide_eq_true_eq]
  omega

/-- A queue that is empty has space. -/
theorem spaceAvailable_of_held {q : ByteStreamQueue} (h : q.Valid) (hheld : q.held = []) :
    q.spaceAvailable = true := by
  have hadd := h.available_add
  have hone := h.one_lt
  have hempty : ¬ q.nonEmpty = true := fun hnonEmpty => (nonEmpty_iff h).mp hnonEmpty hheld
  rw [nonEmpty, decide_eq_true_eq] at hempty
  rw [spaceAvailable, decide_eq_true_eq]
  omega

/-- A descriptor that takes nothing. -/
theorem popChunk_zero {q : ByteStreamQueue} (h : q.Valid) (hnonEmpty : q.nonEmpty = true) :
    q.popChunk 0 = .error .writeReturnedZero := by
  have hadd := h.available_add
  have hone := h.one_lt
  have hpos : 0 < q.availableToPop := by simpa [nonEmpty] using hnonEmpty
  obtain ⟨hle, hfit, hlimit⟩ := h.contiguous_spec q.availableToPop h.pop_lt (by omega)
  have hlimit := hlimit hpos
  unfold popChunk
  rw [QueueFault.assert_pos hnonEmpty, ok_bind]
  generalize q.contiguous q.nextByteToPop q.availableToPop = limit at hle hfit hlimit ⊢
  dsimp only
  rw [QueueFault.assert_pos (Nat.le_add_right _ _), ok_bind, FileDescriptor.write, if_neg,
    if_pos (Nat.zero_min _)]
  · rfl
  · intro hnil
    have hlength := congrArg List.length hnil
    rw [List.length_take, List.length_drop, List.length_nil] at hlength
    omega

namespace Log

variable {size : Nat} {l : Log}

/-- Bytes that are held stay held while others come. -/
theorem pushFrom_ensures (fd : FileDescriptor) (k : SocketAnswer) (h : l.Kept size)
    (hspace : l.queue.spaceAvailable = true) :
    Ensures (· = .systemCall) (fun r => r.2.1.Kept size ∧ r.2.2.readCount = fd.readCount + 1 ∧
        (l.queue.nonEmpty = true → r.2.1.queue.nonEmpty = true) ∧
        ((r.1 = .cancels ∧ r.2.2.eof = true) ∨ (r.1 = .continues ∧ r.2.2.eof = fd.eof)))
      (l.pushFrom k fd) := by
  unfold pushFrom
  cases k.source with
  | none =>
      obtain ⟨chunk, q', hpush, -⟩ := push_ok h.valid hspace []
      rw [hpush]
      exact rfl
  | some source =>
      obtain ⟨chunk, q', hpush, -, hv, hlength, hheld⟩ := push_ok h.valid hspace source
      dsimp only
      rw [hpush]
      refine ⟨⟨hv, hlength.trans h.length, ?_⟩, rfl, ?_, ?_⟩
      · rw [hheld, ← List.append_assoc, h.bytes]
      · rw [nonEmpty_iff h.valid]
        show l.queue.held ≠ [] → q'.nonEmpty = true
        rw [nonEmpty_iff hv, hheld]
        exact fun hne => List.append_ne_nil_of_left_ne_nil hne _
      · by_cases hchunk : chunk = []
        · subst hchunk
          exact .inl ⟨rfl, Bool.or_true _⟩
        · refine .inr ⟨if_neg hchunk, ?_⟩
          show (fd.eof || chunk.isEmpty) = fd.eof
          rw [List.isEmpty_eq_false_iff.mpr hchunk, Bool.or_false]

theorem Kept.held_lt (h : l.Kept size) : l.queue.held.length < size := by
  have hadd := h.valid.available_add
  have hone := h.valid.one_lt
  rw [← h.length, ByteStreamQueue.held, Ring.length_window _ h.valid.pop_lt.le (by omega)]
  omega

theorem pushFrom_result {k : SocketAnswer} {r : ActionResult × Log × FileDescriptor}
    (h : l.pushFrom k fd = .ok r) : r.1 = .cancels ∨ r.1 = .continues := by
  unfold pushFrom at h
  cases hsource : k.source with
  | none =>
      rw [hsource] at h
      obtain ⟨_, -, h⟩ := bind_ok.mp h
      cases h
  | some source =>
      rw [hsource] at h
      obtain ⟨⟨chunk, q⟩, -, h⟩ := bind_ok.mp h
      cases h
      exact ite_eq_or_eq _ _ _

theorem popTo_ensures (fd : FileDescriptor) (k : SocketAnswer) (h : l.Kept size)
    (hnonEmpty : l.queue.nonEmpty = true) :
    Ensures (fun e => e = .systemCall ∨ e = .queue .writeReturnedZero)
      (fun r => r.1.Kept size ∧ r.2.writeCount = fd.writeCount + 1 ∧ r.2.eof = fd.eof)
      (l.popTo k fd) := by
  unfold popTo
  cases k.room with
  | none =>
      obtain ⟨str, q', hpop, -⟩ := pop_ok h.valid hnonEmpty Nat.one_pos
      rw [hpop]
      exact .inl rfl
  | some room =>
      cases room with
      | zero =>
          dsimp only
          rw [popChunk_zero h.valid hnonEmpty]
          exact .inr rfl
      | succ more =>
          obtain ⟨str, q', hpop, -, hv, hlength, hheld⟩ :=
            pop_ok h.valid hnonEmpty (Nat.succ_pos more)
          dsimp only
          rw [hpop]
          refine ⟨⟨hv, hlength.trans h.length, ?_⟩, rfl, rfl⟩
          rw [List.append_assoc, ← hheld, h.bytes]

end Log

end ByteStreamQueue

/-! ### The relay -/

namespace TcpRelay

/-- An end is cancelled when it has closed. -/
def session (r : TcpRelay) : RelaySession where
  actions := actions (!r.dnsServer.eof) (!r.client.eof)
  state := r

/-- Both queues have kept what they were given. -/
structure Relays (c : RelaySession) : Prop where
  eq : c = session c.state
  fromClient : c.state.fromClient.Kept BUFFER_SIZE
  fromServer : c.state.fromServer.Kept BUFFER_SIZE

/-- What an action asks for. -/
def pre (i : Nat) (c : RelaySession) : Prop :=
  match i with
  | 0 => c.state.fromServer.queue.spaceAvailable = true
  | 1 => c.state.fromClient.queue.spaceAvailable = true
  | 2 => c.state.fromClient.queue.nonEmpty = true
  | 3 => c.state.fromServer.queue.nonEmpty = true
  | _ => True

/-- What a socket can do to the thread. -/
def Throws (f : PollFault RelayFault) : Prop :=
  f = .callback .systemCall ∨ f = .callback (.queue .writeReturnedZero)

variable {i : Nat} {k : SocketAnswer} {r : TcpRelay}

theorem serverIn_ensures (hclient : r.fromClient.Kept BUFFER_SIZE)
    (hserver : r.fromServer.Kept BUFFER_SIZE) (hpre : r.fromServer.queue.spaceAvailable = true) :
    CallEnsures Throws (fun s => Relays s.2) pre 0 k (session r) := by
  refine call_ensures rfl (Ensures.bind
    ((Log.pushFrom_ensures r.dnsServer k hserver hpre).mono_error fun e he => ?_) ?_)
  · exact .inl (congrArg _ he)
  · rintro ⟨result, fromServer, dnsServer⟩ ⟨hkept, hcount, hkeeps, hresult⟩
    dsimp only at hkept hcount hkeeps hresult
    have hmoved : r.dnsServer.readCount ≠ dnsServer.readCount := hcount ▸ FileDescriptor.count_moves _
    have hlater : ∀ actions j, 0 < j → pre j (session r) →
        pre j { actions, state := { r with fromServer, dnsServer } } := by
      intro actions j hj h
      match j with
      | 0 => exact absurd hj (Nat.lt_irrefl 0)
      | 1 | 2 => exact h
      | 3 => exact hkeeps h
      | _ + 4 => trivial
    rcases hresult with ⟨rfl, heof⟩ | ⟨rfl, heof⟩
    · refine ⟨fun h => absurd h hmoved, ⟨?_, hclient, hkept⟩, hlater _⟩
      simp only [session, heof]
      rfl
    · refine ⟨fun h => absurd h hmoved, ⟨?_, hclient, hkept⟩, hlater _⟩
      simp only [session, heof]

theorem clientIn_ensures (hclient : r.fromClient.Kept BUFFER_SIZE)
    (hserver : r.fromServer.Kept BUFFER_SIZE) (hpre : r.fromClient.queue.spaceAvailable = true) :
    CallEnsures Throws (fun s => Relays s.2) pre 1 k (session r) := by
  refine call_ensures rfl (Ensures.bind
    ((Log.pushFrom_ensures r.client k hclient hpre).mono_error fun e he => ?_) ?_)
  · exact .inl (congrArg _ he)
  · rintro ⟨result, fromClient, client⟩ ⟨hkept, hcount, hkeeps, hresult⟩
    dsimp only at hkept hcount hkeeps hresult
    have hmoved : r.client.readCount ≠ client.readCount := hcount ▸ FileDescriptor.count_moves _
    have hlater : ∀ actions j, 1 < j → pre j (session r) →
        pre j { actions, state := { r with fromClient, client } } := by
      intro actions j hj h
      match j with
      | 0 | 1 => omega
      | 2 => exact hkeeps h
      | 3 => exact h
      | _ + 4 => trivial
    rcases hresult with ⟨rfl, heof⟩ | ⟨rfl, heof⟩
    · refine ⟨fun h => absurd h hmoved, ⟨?_, hkept, hserver⟩, hlater _⟩
      simp only [session, heof]
      rfl
    · refine ⟨fun h => absurd h hmoved, ⟨?_, hkept, hserver⟩, hlater _⟩
      simp only [session, heof]

theorem serverOut_ensures (hclient : r.fromClient.Kept BUFFER_SIZE)
    (hserver : r.fromServer.Kept BUFFER_SIZE) (hpre : r.fromClient.queue.nonEmpty = true) :
    CallEnsures Throws (fun s => Relays s.2) pre 2 k (session r) := by
  refine call_ensures rfl (Ensures.bind
    ((Log.popTo_ensures r.dnsServer k hclient hpre).mono_error fun e he => ?_) ?_)
  · exact he.imp (congrArg _) (congrArg _)
  · rintro ⟨fromClient, dnsServer⟩ ⟨hkept, hcount, heof⟩
    dsimp only at hkept hcount heof
    have hmoved : r.dnsServer.writeCount ≠ dnsServer.writeCount :=
      hcount ▸ FileDescriptor.count_moves _
    refine ⟨fun h => absurd h hmoved, ⟨?_, hkept, hserver⟩, fun j hj h => ?_⟩
    · simp only [session, heof]
    · match j with
      | 0 | 1 | 2 => omega
      | 3 => exact h
      | _ + 4 => trivial

theorem clientOut_ensures (hclient : r.fromClient.Kept BUFFER_SIZE)
    (hserver : r.fromServer.Kept BUFFER_SIZE) (hpre : r.fromServer.queue.nonEmpty = true) :
    CallEnsures Throws (fun s => Relays s.2) pre 3 k (session r) := by
  refine call_ensures rfl (Ensures.bind
    ((Log.popTo_ensures r.client k hserver hpre).mono_error fun e he => ?_) ?_)
  · exact he.imp (congrArg _) (congrArg _)
  · rintro ⟨fromServer, client⟩ ⟨hkept, hcount, heof⟩
    dsimp only at hkept hcount heof
    have hmoved : r.client.writeCount ≠ client.writeCount := hcount ▸ FileDescriptor.count_moves _
    refine ⟨fun h => absurd h hmoved, ⟨?_, hclient, hkept⟩, fun j hj h => ?_⟩
    · simp only [session, heof]
    · match j with
      | 0 | 1 | 2 | 3 => omega
      | _ + 4 => trivial

theorem call_relays (i : Nat) (k : SocketAnswer) (c : RelaySession) (h : Relays c)
    (hpre : pre i c) : CallEnsures Throws (fun s => Relays s.2) pre i k c := by
  obtain ⟨heq, hclient, hserver⟩ := h
  generalize c.state = r at heq hclient hserver
  subst heq
  match i with
  | 0 => exact serverIn_ensures hclient hserver hpre
  | 1 => exact clientIn_ensures hclient hserver hpre
  | 2 => exact serverOut_ensures hclient hserver hpre
  | 3 => exact clientOut_ensures hclient hserver hpre
  | _ + 4 => exact call_absent rfl ⟨⟨rfl, hclient, hserver⟩, fun _ _ hj => hj⟩

/-- What the poller asks the sockets for. -/
theorem session_events (turns : Nat → Turn SocketAnswer) (r : TcpRelay) (i : Nat) :
    ((session r).events turns i).isSome = true ↔ match i with
      | 0 => r.dnsServer.eof = false ∧ r.fromServer.queue.spaceAvailable = true
      | 1 => r.client.eof = false ∧ r.fromClient.queue.spaceAvailable = true
      | 2 => r.fromClient.queue.nonEmpty = true
      | 3 => r.fromServer.queue.nonEmpty = true
      | _ => False := by
  match i with
  | 0 | 1 | 2 | 3 =>
      rw [events_eq (c := session r) rfl, Action.events_isSome_iff]
      simp
      tauto
  | _ + 4 => exact iff_of_false Bool.false_ne_true id

theorem pre_of_events {turns : Nat → Turn SocketAnswer} {c : RelaySession} (h : Relays c)
    (hevents : (c.events turns i).isSome = true) : pre i c := by
  rw [h.eq, session_events] at hevents
  match i with
  | 0 | 1 => exact hevents.2
  | 2 | 3 => exact hevents
  | _ + 4 => trivial

theorem Relays.neverExits {c : RelaySession} (h : Relays c) : c.NeverExits := by
  rw [h.eq]
  intro a ha k s status s' hcallback
  simp only [session, actions, List.mem_cons, List.not_mem_nil, or_false] at ha
  rcases ha with rfl | rfl | rfl | rfl
  · obtain ⟨⟨result, l, fd⟩, hpush, hresult⟩ := bind_ok.mp hcallback
    cases hresult
    rcases Log.pushFrom_result hpush with hr | hr <;> cases hr
  · obtain ⟨⟨result, l, fd⟩, hpush, hresult⟩ := bind_ok.mp hcallback
    cases hresult
    rcases Log.pushFrom_result hpush with hr | hr <;> cases hr
  · obtain ⟨_, -, hresult⟩ := bind_ok.mp hcallback
    cases hresult
  · obtain ⟨_, -, hresult⟩ := bind_ok.mp hcallback
    cases hresult

theorem ofSize_bufferSize :
    ofSize BUFFER_SIZE = .ok { buffer := List.replicate BUFFER_SIZE 0 } := by
  rw [ofSize, if_neg (by decide), QueueFault.assert_pos (by decide)]
  rfl

/-- **What a connection keeps**, whatever its sockets do. -/
theorem handleTcp_ensures (rounds : List (Nat → Turn SocketAnswer)) :
    Ensures Throws (fun s => Relays s.2) (handleTcp rounds) := by
  obtain ⟨hv, hlength, hheld⟩ := ofSize_ok ofSize_bufferSize
  have hkept : Log.Kept BUFFER_SIZE { queue := { buffer := List.replicate BUFFER_SIZE 0 } } :=
    ⟨hv, hlength, hheld⟩
  unfold handleTcp
  rw [ofSize_bufferSize]
  exact loop_ensures (I := fun s => Relays s.2) call_relays (fun _ h => h)
    (fun _ _ _ h => pre_of_events h) ⟨rfl, hkept, hkept⟩ rounds

/-- **The relay is faithful.**  All that can stop it is a socket that fails; what one end was sent
and what is still queued for it is what the other end sent, in order. -/
theorem relay_faithful (rounds : List (Nat → Turn SocketAnswer)) :
    Ensures (fun f => f = .callback .systemCall ∨ f = .callback (.queue .writeReturnedZero))
      (fun s =>
        s.2.state.fromClient.popped ++ s.2.state.fromClient.queue.held =
          s.2.state.fromClient.pushed ∧
        s.2.state.fromServer.popped ++ s.2.state.fromServer.queue.held =
          s.2.state.fromServer.pushed ∧
        s.2.state.fromClient.queue.held.length < BUFFER_SIZE ∧
        s.2.state.fromServer.queue.held.length < BUFFER_SIZE)
      (handleTcp rounds) := by
  refine (handleTcp_ensures rounds).mono fun s h => ?_
  exact ⟨h.fromClient.bytes, h.fromServer.bytes, h.fromClient.held_lt, h.fromServer.held_lt⟩

/-- Both ends have closed, and all that they sent has been passed on. -/
structure Drained (r : TcpRelay) : Prop where
  clientClosed : r.client.eof = true
  serverClosed : r.dnsServer.eof = true
  toServer : r.fromClient.popped = r.fromClient.pushed
  toClient : r.fromServer.popped = r.fromServer.pushed

theorem drained_iff {c : RelaySession} (h : Relays c) (turns : Nat → Turn SocketAnswer) :
    (∀ i, c.events turns i = none) ↔ c.state.Drained := by
  have hevents := session_events turns c.state
  rw [← h.eq] at hevents
  have hnone : ∀ i, c.events turns i = none ↔ ¬ (c.events turns i).isSome = true := fun i => by
    rw [Option.isSome_iff_ne_none, not_not]
  constructor
  · intro hquiet
    have hno : ∀ i, ¬ (c.events turns i).isSome = true := fun i => (hnone i).mp (hquiet i)
    -- nothing waits to be written, so there is space, and only a closed end is not read
    have hclient : c.state.fromClient.queue.held = [] := by
      by_contra hheld
      exact hno 2 ((hevents 2).mpr ((nonEmpty_iff h.fromClient.valid).mpr hheld))
    have hserver : c.state.fromServer.queue.held = [] := by
      by_contra hheld
      exact hno 3 ((hevents 3).mpr ((nonEmpty_iff h.fromServer.valid).mpr hheld))
    have hbytesClient := h.fromClient.bytes
    have hbytesServer := h.fromServer.bytes
    rw [hclient, List.append_nil] at hbytesClient
    rw [hserver, List.append_nil] at hbytesServer
    refine ⟨?_, ?_, hbytesClient, hbytesServer⟩
    · by_contra hopen
      exact hno 1 ((hevents 1).mpr ⟨Bool.eq_false_iff.mpr hopen,
        spaceAvailable_of_held h.fromClient.valid hclient⟩)
    · by_contra hopen
      exact hno 0 ((hevents 0).mpr ⟨Bool.eq_false_iff.mpr hopen,
        spaceAvailable_of_held h.fromServer.valid hserver⟩)
  · intro hdrained i
    rw [hnone, hevents]
    have hheld : ∀ l : Log, l.Kept BUFFER_SIZE → l.popped = l.pushed → l.queue.nonEmpty ≠ true := by
      intro l hl hpassed hnonEmpty
      have hbytes := hl.bytes
      rw [← hpassed, List.append_right_eq_self] at hbytes
      exact (nonEmpty_iff hl.valid).mp hnonEmpty hbytes
    match i with
    | 0 => exact fun hasked => by rw [hdrained.serverClosed] at hasked; cases hasked.1
    | 1 => exact fun hasked => by rw [hdrained.clientClosed] at hasked; cases hasked.1
    | 2 => exact hheld _ h.fromClient hdrained.toServer
    | 3 => exact hheld _ h.fromServer hdrained.toClient
    | _ + 4 => exact id

/-- **When the relay ends.** -/
theorem relay_exits_iff (rounds : List (Nat → Turn SocketAnswer)) :
    Ensures Throws (fun s => ∀ turns, (∀ i, (turns i).revents.failed = false) →
        ((∃ status c, s.2.poll turns = .ok (.exit status, c)) ↔ s.2.state.Drained))
      (handleTcp rounds) := by
  refine (handleTcp_ensures rounds).mono fun s h turns hok => ?_
  rw [← drained_iff h turns]
  constructor
  · rintro ⟨status, c, hpoll⟩
    exact (quiet_of_poll hpoll hok h.neverExits).2
  · exact fun hquiet => ⟨0, s.2, poll_quiet hquiet⟩

end TcpRelay

end Mahimahi
