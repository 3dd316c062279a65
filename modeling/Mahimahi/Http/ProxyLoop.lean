import Mahimahi.Http.Transparency
import Mahimahi.Util.Poller

/-!
# Http — `HTTPProxy::loop`

The four actions of a proxied connection under the poller, for plain TCP sockets; TLS and the
original destination are left out.  A side that has closed is not read again, and neither is the
other one: what is left to do is to write the messages that are complete.

* `loop_passes`: every run of the loop is an interleaving of the four actions, and ends with an
  exception of a parser, of a system call, of a save that fails, or of the poller when a message took
  a multiple of 2³² writes.
* `loop_transparent`: so what the loop passes on and saves is what the sockets read.
* `loop_exits_iff`: unless a descriptor fails, the loop ends exactly when a side has closed and every
  complete message has been passed on.
* `loop_drains`: once a side has closed, nothing more is read, and every call writes a message.
-/

open Fallible

namespace Mahimahi

open Poller Poller.Session

/-- How `HTTPDiskStore::save` ends. -/
inductive Disk where
  | stored
  /-- the file cannot be made -/
  | noFile
  /-- `SerializeToFileDescriptor` fails -/
  | notSerialized
  deriving DecidableEq, Repr

/-- What a socket does when it is next read or written, and the disk when a record is saved. -/
structure ProxyAnswer where
  /-- what is ready to be read, unless `read(2)` fails -/
  source : Option Bytes
  /-- call number `n` of a `write` takes up to `kernel n + 1` bytes, unless `write(2)` fails -/
  kernel : Option (Nat → Nat)
  disk : Disk

inductive ProxyFault where
  | http (e : HTTPError)
  | write (f : QueueFault)
  /-- `unix_error` -/
  | systemCall
  /-- `save_to_disk: failure to serialize HTTP request/response pair` -/
  | saveToDisk
  /-- `front()` of an empty `std::queue` -/
  | frontOfEmpty
  deriving DecidableEq, Repr

structure HTTPProxy where
  connection : Connection := {}
  server : FileDescriptor := {}
  client : FileDescriptor := {}
  /-- what the callbacks have done so far -/
  events : List ProxyEvent := []

namespace HTTPProxy

abbrev ProxySession := Session ProxyFault ProxyAnswer HTTPProxy

def read (k : ProxyAnswer) (fd : FileDescriptor) : Except ProxyFault (Bytes × FileDescriptor) :=
  match k.source with
  | none => .error .systemCall
  | some source =>
      let buffer := FileDescriptor.read source FileDescriptor.BUFFER_SIZE
      .ok (buffer, fd.afterRead buffer)

def write (k : ProxyAnswer) (str : Bytes) (fd : FileDescriptor) : Except ProxyFault FileDescriptor :=
  match k.kernel with
  | none => .error .systemCall
  | some kernel => do
      let pieces ← (FileDescriptor.writeAll kernel 0 str).mapError .write
      return fd.afterWrites pieces.length

/-- What `save` does but for the record that it stores. -/
def save (k : ProxyAnswer) : Except ProxyFault Unit :=
  match k.disk with
  | .stored => .ok ()
  | .noFile => .error .systemCall
  | .notSerialized => .error .saveToDisk

/-- What a callback does with the parsers, and the record that is saved. -/
def take (event : ProxyEvent) (p : HTTPProxy) : Except ProxyFault HTTPProxy := do
  let connection ← (Connection.step event p.connection).mapError .http
  return { p with connection, events := p.events ++ [event] }

def serverIn (k : ProxyAnswer) (p : HTTPProxy) : Except ProxyFault (ActionResult × HTTPProxy) := do
  let (buffer, server) ← read k p.server
  let p ← p.take (.serverIn buffer)
  return (.continues, { p with server })

def clientIn (k : ProxyAnswer) (p : HTTPProxy) : Except ProxyFault (ActionResult × HTTPProxy) := do
  let (buffer, client) ← read k p.client
  let p ← p.take (.clientIn buffer)
  return (.continues, { p with client })

def serverOut (k : ProxyAnswer) (p : HTTPProxy) : Except ProxyFault (ActionResult × HTTPProxy) :=
  match p.connection.requestParser.completeMessages with
  | [] => .error .frontOfEmpty
  | request :: _ => do
      let str ← request.str.mapError .http
      let server ← write k str p.server
      let p ← p.take .serverOut
      return (.continues, { p with server })

def clientOut (k : ProxyAnswer) (p : HTTPProxy) : Except ProxyFault (ActionResult × HTTPProxy) :=
  match p.connection.responseParser.completeMessages with
  | [] => .error .frontOfEmpty
  | response :: _ => do
      let str ← response.str.mapError .http
      let client ← write k str p.client
      save k
      let p ← p.take .clientOut
      return (.continues, { p with client })

def actions : List (Action ProxyFault ProxyAnswer HTTPProxy) :=
  [{ fd := server, direction := .pollIn, callback := serverIn
     whenInterested := fun _ p => !p.client.eof },
   { fd := client, direction := .pollIn, callback := clientIn
     whenInterested := fun _ p => !p.server.eof },
   { fd := server, direction := .pollOut, callback := serverOut
     whenInterested := fun _ p => !p.connection.requestParser.completeMessages.isEmpty },
   { fd := client, direction := .pollOut, callback := clientOut
     whenInterested := fun _ p => !p.connection.responseParser.completeMessages.isEmpty }]

/-- `HTTPProxy::loop`, as far as it has come in `rounds` polls. -/
def loop (rounds : List (Nat → Turn ProxyAnswer)) :
    Except (PollFault ProxyFault) (Option Nat × ProxySession) :=
  run loopStep rounds (none, { actions, state := {} })

/-! ### The callbacks -/

variable {p p' : HTTPProxy} {k : ProxyAnswer} {i : Nat}

/-- The callbacks have come to `p`. -/
structure Passes (c : ProxySession) : Prop where
  actions : c.actions = actions
  run : run Connection.step c.state.events {} = .ok c.state.connection

/-- What an action asks for. -/
def pre (i : Nat) (c : ProxySession) : Prop :=
  match i with
  | 2 => c.state.connection.requestParser.completeMessages ≠ []
  | 3 => c.state.connection.responseParser.completeMessages ≠ []
  | _ => True

/-- How the thread of a connection can end. -/
def Throws (f : PollFault ProxyFault) : Prop :=
  (∃ e, f = .callback (.http e)) ∨ f = .callback .systemCall ∨ f = .callback .saveToDisk ∨
    f = .busyWait

theorem parse_keeps {D P : Type} [MessageType D] [SequenceType D P]
    {q q' : HTTPMessageSequence D P} {b : Bytes} (h : HTTPMessageSequence.parse b q = .ok q') :
    q.completeMessages <+: q'.completeMessages := by
  obtain ⟨m, -, h⟩ := bind_ok.mp h
  have hrun := HTTPMessageSequence.run_completed
    (q := HTTPMessageSequence.append { q with messageInProgress := m } b)
  rw [h] at hrun
  exact hrun

/-- What an event has made of the parsers. -/
structure Takes (event : ProxyEvent) (p p' : HTTPProxy) : Prop where
  run : run Connection.step p'.events {} = .ok p'.connection
  step : Connection.step event p.connection = .ok p'.connection
  events : p'.events = p.events ++ [event]

theorem take_ensures (event : ProxyEvent)
    (h : run Connection.step p.events {} = .ok p.connection) :
    Ensures (fun e => Throws (.callback e))
      (fun p' => Takes event p p' ∧ p'.server = p.server ∧ p'.client = p.client)
      (p.take event) := by
  unfold take
  cases hstep : Connection.step event p.connection with
  | error e => exact .inl ⟨e, rfl⟩
  | ok connection =>
      refine ⟨⟨?_, hstep, rfl⟩, rfl, rfl⟩
      show run Connection.step (p.events ++ [event]) {} = .ok connection
      rw [run_append, h, ok_bind, run_singleton, hstep]

theorem Takes.of_eq {event : ProxyEvent} {q : HTTPProxy} (h : Takes event p p')
    (hconnection : q.connection = p'.connection) (hevents : q.events = p'.events) :
    Takes event p q := by
  obtain ⟨hrun, hstep, hall⟩ := h
  exact ⟨by rw [hevents, hconnection]; exact hrun, by rw [hconnection]; exact hstep,
    hevents.trans hall⟩

theorem read_ensures (k : ProxyAnswer) (fd : FileDescriptor) :
    Ensures (fun e => Throws (.callback e)) (fun r => fd.eof = true → r.2.eof = true)
      (read k fd) := by
  unfold read
  cases k.source with
  | none => exact .inr (.inl rfl)
  | some source =>
      intro heof
      show (fd.eof || _) = true
      rw [heof, Bool.true_or]

theorem write_ensures (k : ProxyAnswer) {str : Bytes} (hstr : str ≠ []) (fd : FileDescriptor) :
    Ensures (fun e => Throws (.callback e)) (fun fd' => fd'.eof = fd.eof) (write k str fd) := by
  unfold write
  cases k.kernel with
  | none => exact .inr (.inl rfl)
  | some kernel =>
      obtain ⟨pieces, hpieces, -⟩ := FileDescriptor.writeAll_ok kernel 0 hstr
      dsimp only
      rw [hpieces]
      exact rfl

theorem save_ensures (k : ProxyAnswer) :
    Ensures (fun e => Throws (.callback e)) (fun _ => True) (save k) := by
  unfold save
  cases k.disk with
  | stored => trivial
  | noFile => exact .inr (.inl rfl)
  | notSerialized => exact .inr (.inr (.inl rfl))

/-- What a callback has done. -/
structure Did (event : ProxyEvent) (p : HTTPProxy) (r : ActionResult × HTTPProxy) : Prop where
  result : r.1 = .continues
  takes : Takes event p r.2
  server : p.server.eof = true → r.2.server.eof = true
  client : p.client.eof = true → r.2.client.eof = true

theorem serverIn_ensures (k : ProxyAnswer)
    (h : run Connection.step p.events {} = .ok p.connection) :
    Ensures (fun e => Throws (.callback e)) (fun r => ∃ buffer, Did (.serverIn buffer) p r)
      (serverIn k p) := by
  refine (read_ensures k p.server).bind fun r hr => ?_
  refine (take_ensures (.serverIn r.1) h).bind ?_
  rintro p' ⟨htakes, -, hclient⟩
  exact ⟨r.1, rfl, htakes.of_eq rfl rfl, hr, fun h => hclient ▸ h⟩

theorem clientIn_ensures (k : ProxyAnswer)
    (h : run Connection.step p.events {} = .ok p.connection) :
    Ensures (fun e => Throws (.callback e)) (fun r => ∃ buffer, Did (.clientIn buffer) p r)
      (clientIn k p) := by
  refine (read_ensures k p.client).bind fun r hr => ?_
  refine (take_ensures (.clientIn r.1) h).bind ?_
  rintro p' ⟨htakes, hserver, -⟩
  exact ⟨r.1, rfl, htakes.of_eq rfl rfl, fun h => hserver ▸ h, hr⟩

/-- A message that is complete can be printed, and is not empty. -/
theorem str_ensures {D : Type} {m : HTTPMessage D} (h : m.state = .complete) :
    Ensures (fun e => Throws (.callback e)) (fun str => str ≠ []) (m.str.mapError .http) := by
  rw [HTTPMessage.str_eq h]
  show m.text ≠ []
  simp [HTTPMessage.text, CRLF]

theorem serverOut_ensures (k : ProxyAnswer)
    (h : run Connection.step p.events {} = .ok p.connection)
    (hready : p.connection.requestParser.completeMessages ≠ []) :
    Ensures (fun e => Throws (.callback e)) (Did .serverOut p) (serverOut k p) := by
  have hguards := Connection.run_guards h
  unfold serverOut
  split
  next hnil => exact absurd hnil hready
  next request waiting heq =>
    have hcomplete : request.state = .complete :=
      (hguards.requests.completes request (heq ▸ List.mem_cons_self)).1
    refine (str_ensures hcomplete).bind fun str hstr => ?_
    refine (write_ensures k hstr p.server).bind fun server hserver => ?_
    refine (take_ensures .serverOut h).bind ?_
    rintro p' ⟨htakes, -, hclient⟩
    exact ⟨rfl, htakes.of_eq rfl rfl, fun h => hserver.trans h, fun h => hclient ▸ h⟩

theorem clientOut_ensures (k : ProxyAnswer)
    (h : run Connection.step p.events {} = .ok p.connection)
    (hready : p.connection.responseParser.completeMessages ≠ []) :
    Ensures (fun e => Throws (.callback e)) (Did .clientOut p) (clientOut k p) := by
  have hguards := Connection.run_guards h
  unfold clientOut
  split
  next hnil => exact absurd hnil hready
  next response waiting heq =>
    have hcomplete : response.state = .complete :=
      (hguards.responses.completes response (heq ▸ List.mem_cons_self)).1
    refine (str_ensures hcomplete).bind fun str hstr => ?_
    refine (write_ensures k hstr p.client).bind fun client hclient => ?_
    refine (save_ensures k).bind fun _ _ => ?_
    refine (take_ensures .clientOut h).bind ?_
    rintro p' ⟨htakes, hserver, -⟩
    exact ⟨rfl, htakes.of_eq rfl rfl, fun h => hserver ▸ h, fun h => hclient.trans h⟩

/-! ### The loop -/

/-- The events of a callback. -/
def IsEvent : Nat → ProxyEvent → Prop
  | 0, .serverIn _ | 1, .clientIn _ | 2, .serverOut | 3, .clientOut => True
  | _, _ => False

/-- What a call has done: nothing, if there is no such action. -/
def Called (i : Nat) (c : ProxySession) (r : Option Nat × ProxySession) : Prop :=
  r.1 = none ∧ Passes r.2 ∧ (r.2 = c ∨ ∃ event, IsEvent i event ∧
    Did event c.state (.continues, r.2.state))

theorem call_spec (i : Nat) (k : ProxyAnswer) {c : ProxySession} (h : Passes c) (hpre : pre i c) :
    Ensures Throws (Called i c) (c.call i k) := by
  obtain ⟨hactions, hrun⟩ := h
  obtain ⟨actions', p⟩ := c
  dsimp only at hactions hrun
  subst hactions
  have hbusy : ∀ n n' : UInt32, n = n' → Throws .busyWait := fun _ _ _ => .inr (.inr (.inr rfl))
  have hdid : ∀ (event : ProxyEvent) (a : Action ProxyFault ProxyAnswer HTTPProxy) (r),
      IsEvent i event → Did event p r →
        Answers Throws (Called i ⟨actions, p⟩) i a ⟨actions, p⟩ r := by
    rintro event a ⟨result, p'⟩ hevent hr
    obtain rfl : result = .continues := hr.result
    exact ⟨hbusy _ _, rfl, ⟨rfl, hr.takes.run⟩, .inr ⟨event, hevent, hr⟩⟩
  match i with
  | 0 =>
      refine call_ensures rfl ((serverIn_ensures k hrun).mono ?_)
      rintro r ⟨buffer, hr⟩
      exact hdid (.serverIn buffer) _ r trivial hr
  | 1 =>
      refine call_ensures rfl ((clientIn_ensures k hrun).mono ?_)
      rintro r ⟨buffer, hr⟩
      exact hdid (.clientIn buffer) _ r trivial hr
  | 2 =>
      exact call_ensures rfl ((serverOut_ensures k hrun hpre).mono fun r hr =>
        hdid .serverOut _ r trivial hr)
  | 3 =>
      exact call_ensures rfl ((clientOut_ensures k hrun hpre).mono fun r hr =>
        hdid .clientOut _ r trivial hr)
  | _ + 4 => exact call_absent rfl ⟨rfl, ⟨rfl, hrun⟩, .inl rfl⟩

/-! ### What waits to be written -/

/-- The messages that are complete. -/
def queued (c : Connection) : Nat :=
  c.requestParser.completeMessages.length + c.responseParser.completeMessages.length

variable {c c' : Connection} {buffer : Bytes}

theorem step_serverIn (h : Connection.step (.serverIn buffer) c = .ok c') :
    c'.requestParser = c.requestParser ∧
      c.responseParser.completeMessages <+: c'.responseParser.completeMessages := by
  obtain ⟨q, hparse, h⟩ := bind_ok.mp h
  cases h
  exact ⟨rfl, parse_keeps (of_mapError_ok hparse)⟩

theorem step_clientIn (h : Connection.step (.clientIn buffer) c = .ok c') :
    c.requestParser.completeMessages <+: c'.requestParser.completeMessages ∧
      c'.responseParser = c.responseParser := by
  obtain ⟨q, hparse, h⟩ := bind_ok.mp h
  cases h
  exact ⟨parse_keeps (of_mapError_ok hparse), rfl⟩

theorem step_serverOut (h : Connection.step .serverOut c = .ok c') :
    c'.requestParser.completeMessages = c.requestParser.completeMessages.tail ∧
      c'.responseParser.completeMessages = c.responseParser.completeMessages := by
  unfold Connection.step at h
  dsimp only at h
  split at h
  next hnil =>
    cases h
    exact ⟨by rw [hnil]; rfl, rfl⟩
  next =>
    obtain ⟨str, -, h⟩ := bind_ok.mp h
    cases h
    exact ⟨rfl, rfl⟩

theorem step_clientOut (h : Connection.step .clientOut c = .ok c') :
    c'.requestParser = c.requestParser ∧
      c'.responseParser.completeMessages = c.responseParser.completeMessages.tail := by
  unfold Connection.step at h
  dsimp only at h
  split at h
  next hnil =>
    cases h
    exact ⟨rfl, by rw [hnil]; rfl⟩
  next =>
    obtain ⟨str, -, h⟩ := bind_ok.mp h
    obtain ⟨request, -, h⟩ := bind_ok.mp h
    obtain ⟨record, -, h⟩ := bind_ok.mp h
    cases h
    exact ⟨rfl, rfl⟩

/-- What an action asked for survives the callbacks in front of it. -/
theorem pre_later {event : ProxyEvent} {s s' : ProxySession} {j : Nat} (hevent : IsEvent i event)
    (h : Connection.step event s.state.connection = .ok s'.state.connection) (hj : i < j)
    (hpre : pre j s) : pre j s' := by
  match i, event with
  | 0, .serverIn buffer =>
      obtain ⟨hrequests, hresponses⟩ := step_serverIn h
      match j with
      | 2 => exact fun hnil => hpre (by rw [← hrequests]; exact hnil)
      | 3 => exact hresponses.ne_nil hpre
      | 0 | 1 | _ + 4 => trivial
  | 1, .clientIn buffer =>
      obtain ⟨hrequests, hresponses⟩ := step_clientIn h
      match j with
      | 2 => exact hrequests.ne_nil hpre
      | 3 => exact fun hnil => hpre (by rw [← hresponses]; exact hnil)
      | 0 | 1 | _ + 4 => trivial
  | 2, .serverOut =>
      match j with
      | 3 => exact fun hnil => hpre (by rw [← (step_serverOut h).2]; exact hnil)
      | 0 | 1 | 2 => omega
      | _ + 4 => trivial
  | 3, .clientOut =>
      match j with
      | 0 | 1 | 2 | 3 => omega
      | _ + 4 => trivial

theorem call_passes (i : Nat) (k : ProxyAnswer) (c : ProxySession) (h : Passes c) (hpre : pre i c) :
    CallEnsures Throws (fun s => Passes s.2) pre i k c := by
  refine (call_spec i k h hpre).mono ?_
  rintro r ⟨-, hpasses, rfl | ⟨event, hevent, hdid⟩⟩
  · exact ⟨hpasses, fun _ _ hj => hj⟩
  · exact ⟨hpasses, fun j hj hpre => pre_later hevent hdid.takes.step hj hpre⟩

/-- What the poller asks the sockets for. -/
theorem session_events (turns : Nat → Turn ProxyAnswer) {c : ProxySession} (h : Passes c)
    (i : Nat) : (c.events turns i).isSome = true ↔ match i with
      | 0 | 1 => c.state.server.eof = false ∧ c.state.client.eof = false
      | 2 => c.state.connection.requestParser.completeMessages ≠ []
      | 3 => c.state.connection.responseParser.completeMessages ≠ []
      | _ => False := by
  obtain ⟨actions', p⟩ := c
  obtain rfl : actions' = actions := h.actions
  match i with
  | 0 | 1 | 2 | 3 =>
      rw [events_eq (c := ⟨actions, p⟩) rfl, Action.events_isSome_iff]
      simp
      try tauto
  | _ + 4 => exact iff_of_false Bool.false_ne_true id

theorem pre_of_events {turns : Nat → Turn ProxyAnswer} {c : ProxySession} (h : Passes c)
    (hevents : (c.events turns i).isSome = true) : pre i c := by
  rw [session_events turns h] at hevents
  match i with
  | 0 | 1 | _ + 4 => trivial
  | 2 | 3 => exact hevents

/-- **The loop interleaves the four actions.** -/
theorem loop_passes (rounds : List (Nat → Turn ProxyAnswer)) :
    Ensures Throws (fun s => Passes s.2) (loop rounds) :=
  loop_ensures (I := fun s => Passes s.2) call_passes (fun _ h => h)
    (fun _ _ _ h => pre_of_events h) ⟨rfl, rfl⟩ rounds

open Connection HTTPMessageSequence in
/-- **What the loop passes on is what it has read.**  No call asks an empty queue for its front; the
server has been sent the first requests that the client's bytes make up, the client the first
responses that the server's bytes make up for them, and each saved response stands with its
request. -/
theorem loop_transparent (rounds : List (Nat → Turn ProxyAnswer)) :
    Ensures (fun f => (∃ e, f = .callback (.http e)) ∨ f = .callback .systemCall ∨
        f = .callback .saveToDisk ∨ f = .busyWait)
      (fun s => ∃ sent answered,
        run parse (clientPieces s.2.state.events) HTTPRequestParser.new =
          .ok { s.2.state.connection.requestParser with completeMessages :=
            sent ++ s.2.state.connection.requestParser.completeMessages } ∧
        run parse (serverPieces s.2.state.events) (HTTPResponseParser.expecting sent) =
          .ok { s.2.state.connection.responseParser with completeMessages :=
            answered ++ s.2.state.connection.responseParser.completeMessages } ∧
        s.2.state.connection.writtenToServer = sent.flatMap (·.text) ∧
        s.2.state.connection.writtenToClient = answered.flatMap (·.text) ∧
        s.2.state.connection.saved.map Prod.snd = answered.map (·.record) ∧
        s.2.state.connection.saved.map Prod.fst = (sent.take answered.length).map (·.record))
      (loop rounds) :=
  (loop_passes rounds).mono fun _ hs => proxy_transparent hs.run

/-! ### The end -/

/-- A side has closed. -/
def Closed (p : HTTPProxy) : Prop := p.server.eof = true ∨ p.client.eof = true

theorem Closed.not_open (h : p.Closed) : ¬ (p.server.eof = false ∧ p.client.eof = false) := by
  rintro ⟨hserver, hclient⟩
  rcases h with heof | heof
  · rw [hserver] at heof
    cases heof
  · rw [hclient] at heof
    cases heof

theorem neverExits_of_passes {c : ProxySession} (h : Passes c) : c.NeverExits := by
  obtain ⟨actions', p⟩ := c
  obtain rfl : actions' = actions := h.actions
  intro a ha k s status s' hcallback
  simp only [actions, List.mem_cons, List.not_mem_nil, or_false] at ha
  rcases ha with rfl | rfl | rfl | rfl
  · obtain ⟨_, -, hcallback⟩ := bind_ok.mp hcallback
    obtain ⟨_, -, hcallback⟩ := bind_ok.mp hcallback
    cases hcallback
  · obtain ⟨_, -, hcallback⟩ := bind_ok.mp hcallback
    obtain ⟨_, -, hcallback⟩ := bind_ok.mp hcallback
    cases hcallback
  · dsimp only [serverOut] at hcallback
    split at hcallback
    · cases hcallback
    · obtain ⟨_, -, hcallback⟩ := bind_ok.mp hcallback
      obtain ⟨_, -, hcallback⟩ := bind_ok.mp hcallback
      obtain ⟨_, -, hcallback⟩ := bind_ok.mp hcallback
      cases hcallback
  · dsimp only [clientOut] at hcallback
    split at hcallback
    · cases hcallback
    · obtain ⟨_, -, hcallback⟩ := bind_ok.mp hcallback
      obtain ⟨_, -, hcallback⟩ := bind_ok.mp hcallback
      obtain ⟨_, -, hcallback⟩ := bind_ok.mp hcallback
      obtain ⟨_, -, hcallback⟩ := bind_ok.mp hcallback
      cases hcallback

theorem quiet_iff (turns : Nat → Turn ProxyAnswer) {c : ProxySession} (h : Passes c) :
    (∀ i, c.events turns i = none) ↔ c.state.Closed ∧
      c.state.connection.requestParser.completeMessages = [] ∧
      c.state.connection.responseParser.completeMessages = [] := by
  have hnone : ∀ i, c.events turns i = none ↔ ¬ (c.events turns i).isSome = true := fun i => by
    rw [Option.isSome_iff_ne_none, not_not]
  constructor
  · intro hquiet
    have hno : ∀ i, ¬ (c.events turns i).isSome = true := fun i => (hnone i).mp (hquiet i)
    refine ⟨?_, ?_, ?_⟩
    · by_contra hopen
      rw [Closed, not_or, Bool.not_eq_true, Bool.not_eq_true] at hopen
      exact hno 0 ((session_events turns h 0).mpr hopen)
    · by_contra hne
      exact hno 2 ((session_events turns h 2).mpr hne)
    · by_contra hne
      exact hno 3 ((session_events turns h 3).mpr hne)
  · rintro ⟨hclosed, hrequests, hresponses⟩ i
    rw [hnone, session_events turns h]
    match i with
    | 0 | 1 => exact hclosed.not_open
    | 2 => exact not_not_intro hrequests
    | 3 => exact not_not_intro hresponses
    | _ + 4 => exact id

/-- **When the loop ends.** -/
theorem loop_exits_iff (rounds : List (Nat → Turn ProxyAnswer)) :
    Ensures Throws (fun s => ∀ turns, (∀ i, (turns i).revents.failed = false) →
        ((∃ status c, s.2.poll turns = .ok (.exit status, c)) ↔
          (s.2.state.server.eof = true ∨ s.2.state.client.eof = true) ∧
          s.2.state.connection.requestParser.completeMessages = [] ∧
          s.2.state.connection.responseParser.completeMessages = []))
      (loop rounds) := by
  refine (loop_passes rounds).mono fun s h turns hok => ?_
  rw [← Closed, ← quiet_iff turns h]
  constructor
  · rintro ⟨status, c, hpoll⟩
    exact (quiet_of_poll hpoll hok (neverExits_of_passes h)).2
  · exact fun hquiet => ⟨0, s.2, poll_quiet hquiet⟩

/-- `out` has been done since `p`. -/
structure Drains (p : HTTPProxy) (c : ProxySession) : Prop where
  passes : Passes c
  closed : c.state.Closed
  done : ∃ out, c.state.events = p.events ++ out ∧
    (∀ event ∈ out, event = .serverOut ∨ event = .clientOut) ∧
    out.length + queued c.state.connection = queued p.connection

/-- Of a side that has closed, nothing is asked but what waits to be written. -/
def preClosed (i : Nat) (c : ProxySession) : Prop :=
  match i with
  | 0 | 1 => False
  | _ => pre i c

theorem drains_out {p₀ : HTTPProxy} {event : ProxyEvent} {s s' : ProxySession}
    (h : Drains p₀ s) (hevent : event = .serverOut ∨ event = .clientOut)
    (hdid : Did event s.state (.continues, s'.state)) (hpasses : Passes s')
    (hqueued : queued s'.state.connection + 1 = queued s.state.connection) : Drains p₀ s' := by
  obtain ⟨out, hevents, hout, hcount⟩ := h.done
  refine ⟨hpasses, h.closed.imp hdid.server hdid.client, out ++ [event], ?_, ?_, ?_⟩
  · rw [← List.append_assoc, ← hevents]
    exact hdid.takes.events
  · intro e he
    rcases List.mem_append.mp he with he | he
    · exact hout e he
    · exact List.mem_singleton.mp he ▸ hevent
  · rw [List.length_append, List.length_singleton]
    omega

theorem call_drains (p₀ : HTTPProxy) (i : Nat) (k : ProxyAnswer) (c : ProxySession)
    (h : Drains p₀ c) (hpre : preClosed i c) :
    CallEnsures Throws (fun s => Drains p₀ s.2) preClosed i k c := by
  have hpre' : pre i c := by
    match i with
    | 0 | 1 => exact hpre.elim
    | _ + 2 => exact hpre
  refine (call_spec i k h.passes hpre').mono ?_
  rintro r ⟨-, hpasses, hsame | ⟨event, hevent, hdid⟩⟩
  · refine ⟨?_, fun j _ hj => ?_⟩
    · show Drains p₀ r.2
      rw [hsame]
      exact h
    · rw [hsame]
      exact hj
  · have hlater : ∀ j, i < j → preClosed j c → preClosed j r.2 := by
      intro j hj hready
      match j with
      | 0 | 1 => exact hready.elim
      | _ + 2 => exact pre_later hevent hdid.takes.step hj hready
    refine ⟨?_, hlater⟩
    match i, event with
    | 0, _ | 1, _ => exact hpre.elim
    | 2, .serverOut =>
        refine drains_out h (.inl rfl) hdid hpasses ?_
        obtain ⟨hrequests, hresponses⟩ := step_serverOut hdid.takes.step
        have hpos := List.length_pos_iff.mpr hpre
        dsimp only at hrequests hresponses
        rw [queued, queued, hrequests, hresponses, List.length_tail]
        omega
    | 3, .clientOut =>
        refine drains_out h (.inr rfl) hdid hpasses ?_
        obtain ⟨hrequests, hresponses⟩ := step_clientOut hdid.takes.step
        have hpos := List.length_pos_iff.mpr hpre
        dsimp only at hrequests hresponses
        rw [queued, queued, hrequests, hresponses, List.length_tail]
        omega

/-- **Once a side has closed** nothing more is read, from either side.  Every call writes one of the
messages that are complete, and the loop ends when there is none. -/
theorem loop_drains {before : List (Nat → Turn ProxyAnswer)} {c : ProxySession}
    (h : loop before = .ok (none, c)) (hclosed : c.state.server.eof = true ∨ c.state.client.eof = true)
    (rounds : List (Nat → Turn ProxyAnswer)) :
    Ensures Throws (fun s => ∃ out, s.2.state.events = c.state.events ++ out ∧
        (∀ event ∈ out, event = .serverOut ∨ event = .clientOut) ∧
        out.length + queued s.2.state.connection = queued c.state.connection)
      (run loopStep rounds (none, c)) := by
  have hstart : Drains c.state c := ⟨(loop_passes before).of_ok h, hclosed, [], by simp⟩
  refine Ensures.mono (loop_ensures (I := fun s => Drains c.state s.2)
    (call_drains c.state) (fun _ hs => hs) (fun turns i s hs hevents => ?_) hstart rounds)
    fun _ hs => hs.done
  rw [session_events turns hs.passes] at hevents
  match i with
  | 0 | 1 => exact hs.closed.not_open hevents
  | 2 | 3 => exact hevents
  | _ + 4 => trivial

/-- The client sends a request and closes, in two polls; the request is still to be written. -/
def halfClosed : List (Nat → Turn ProxyAnswer) :=
  [fun i => { asked := ⟨none, none, .stored⟩, revents := { pollIn := i == 1 },
              served := ⟨some (ascii "GET / HTTP/1.1\r\n\r\n"), none, .stored⟩ },
   fun i => { asked := ⟨none, none, .stored⟩, revents := { pollIn := i == 1 },
              served := ⟨some [], none, .stored⟩ }]

theorem loop_drains_halfClosed :
    ∃ c, loop halfClosed = .ok (none, c) ∧ c.state.client.eof = true ∧
      queued c.state.connection = 1 ∧
      ∀ rounds, Ensures Throws (fun s => ∃ out, s.2.state.events = c.state.events ++ out ∧
          (∀ event ∈ out, event = .serverOut ∨ event = .clientOut) ∧
          out.length + queued s.2.state.connection = queued c.state.connection)
        (run loopStep rounds (none, c)) := by
  have hhalf : (loop halfClosed).map (fun s =>
      (s.1, s.2.state.client.eof, queued s.2.state.connection)) = .ok (none, true, 1) := by
    decide +kernel
  obtain ⟨⟨exit, c⟩, hloop, hc⟩ := of_map_ok hhalf
  simp only [Prod.mk.injEq] at hc
  obtain ⟨rfl, hclosed, hqueued⟩ := hc
  exact ⟨c, hloop, hclosed, hqueued, loop_drains hloop (.inr hclosed)⟩

end HTTPProxy

end Mahimahi
