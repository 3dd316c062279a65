import Mahimahi.Http.Assertions
import Mahimahi.Http.Pairing

/-!
# Http — what a proxied connection passes on

`step` lets the four actions of `HTTPProxy::loop` come in any order, so a run is one interleaving of
reading, parsing, writing and saving.

* `run_asked`: a parser hands out its requests in order, and loses none.
* `proxy_transparent`: what the proxy writes to either side, and what it saves, is what the other
  side sent, message by message; every saved response stands with the request it answers.
-/

open Fallible

namespace Mahimahi

open Search Loops HTTPMessageSequence

/-! ### Messages in front -/

namespace HTTPMessageSequence

variable {D P : Type} [MessageType D] [SequenceType D P] {q q' : HTTPMessageSequence D P}

/-- The parser, with messages that were complete before. -/
def behind (cs : List (HTTPMessage D)) (q : HTTPMessageSequence D P) : HTTPMessageSequence D P :=
  { q with completeMessages := cs ++ q.completeMessages }

/-- **Messages that were complete before change nothing.** -/
theorem parse_behind (cs : List (HTTPMessage D)) {b : Bytes} (h : parse b q = .ok q') :
    parse b (behind cs q) = .ok (behind cs q') :=
  parse_around cs id (fun _ _ _ hbegin => hbegin) h

end HTTPMessageSequence

/-! ### The requests of a parser -/

namespace HTTPResponseParser

variable {q q' : HTTPResponseParser}

/-- The request of the message in progress. -/
def underway (m : HTTPResponse) : List HTTPRequest :=
  if m.state = .firstLinePending then [] else [m.members.request]

/-- The requests that a parser was given, in order: of its complete messages, of the one in progress,
and those that wait. -/
def asked (q : HTTPResponseParser) : List HTTPRequest :=
  q.completeMessages.map (·.members.request) ++ underway q.messageInProgress ++ q.members.requests

theorem underway_begun {m : HTTPResponse} (h : m.state ≠ .firstLinePending) :
    underway m = [m.members.request] := if_neg h

theorem beginMessage_asked {line : Bytes} {r : ResponseParserMembers × HTTPResponse}
    (h : q.beginMessage line = .ok r) :
    q.members.requests = r.2.members.request :: r.1.requests ∧ r.2.state ≠ .firstLinePending := by
  obtain ⟨s, hs, h⟩ := bind_ok.mp h
  have hs' : initializeNewMessage q.members q.messageInProgress = .ok s := hs
  unfold initializeNewMessage at hs'
  split at hs'
  · cases hs'
  next request requests heq =>
    obtain ⟨m, hm, hs'⟩ := bind_ok.mp hs'
    cases hs'
    obtain ⟨m', hm', h⟩ := bind_ok.mp h
    cases h
    obtain ⟨_, -, hm⟩ := bind_ok.mp hm
    obtain ⟨_, -, hm'⟩ := bind_ok.mp hm'
    cases hm
    cases hm'
    refine ⟨heq, fun hpending => ?_⟩
    cases hpending

theorem parsingStep_asked {n : Next HTTPResponseParser HTTPResponseParser}
    (h : parsingStep q = .ok n) :
    n.Satisfies (fun q' => asked q' = asked q) (fun q' => asked q' = asked q) := by
  cases hstate : q.messageInProgress.state with
  | firstLinePending =>
      rw [parsingStep_firstLine hstate] at h
      split at h
      · obtain ⟨r, hr, rfl⟩ := of_map_ok h
        obtain ⟨hrequests, hbegun⟩ := beginMessage_asked hr
        show asked _ = asked q
        rw [asked, asked, underway_begun hbegun, underway, if_pos hstate, hrequests]
        simp
      · cases h
        exact rfl
  | headersPending =>
      rw [parsingStep_headers hstate] at h
      split at h
      · obtain ⟨m, hm, rfl⟩ := of_map_ok h
        obtain ⟨-, hrequest, hbegun⟩ := HTTPResponse.headerLine_keeps hm
        show asked _ = asked q
        rw [asked, asked, underway_begun hbegun, underway_begun (by rw [hstate]; decide), hrequest]
      · cases h
        exact rfl
  | bodyPending =>
      obtain ⟨r, hr, -, hn⟩ := parsingStep_body_ok hstate h
      obtain ⟨-, hrequest, hbegun⟩ := HTTPResponse.readInBody_keeps hstate hr
      have hasked : asked (q.afterBody r) = asked q := by
        rw [asked, asked, underway_begun (m := (q.afterBody r).messageInProgress) hbegun,
          underway_begun (by rw [hstate]; decide)]
        simp only [afterBody, hrequest]
      rcases hn with ⟨-, rfl⟩ | ⟨-, -, rfl⟩
      · exact hasked
      · exact hasked
  | complete =>
      rw [parsingStep_complete hstate] at h
      cases h
      have hbegun : underway q.messageInProgress = [q.messageInProgress.members.request] :=
        underway_begun (by rw [hstate]; decide)
      show asked _ = asked q
      rw [asked, asked, hbegun, List.map_append]
      simp [underway, HTTPMessage.new]

theorem eof_asked {m : HTTPResponse} (h : q.messageInProgress.eof = .ok m) :
    underway m = underway q.messageInProgress := by
  unfold HTTPMessage.eof at h
  split at h
  · cases h
    rfl
  · cases h
  next hstate =>
    obtain ⟨complete, -, h⟩ := bind_ok.mp h
    cases h
    have hbegun : underway q.messageInProgress = [q.messageInProgress.members.request] :=
      underway_begun (by rw [hstate]; decide)
    cases complete with
    | true => exact hbegun.symm
    | false => rfl
  · cases h

theorem parse_asked {b : Bytes} (h : parse b q = .ok q') : asked q' = asked q := by
  obtain ⟨m, hm, h⟩ := bind_ok.mp h
  have hm' := of_mapError_ok hm
  have hunderway : underway m = underway q.messageInProgress := by
    split at hm'
    · exact eof_asked hm'
    · cases hm'
      rfl
  have hstart : asked (append { q with messageInProgress := m } b) = asked q := by
    rw [asked, asked]
    simp only [append, hunderway]
  refine (Loop.ensures_run (L := parsing) (P := fun t => asked t = asked q) (E := fun _ => True)
    (Q := fun t => asked t = asked q) (fun t _ ht => ensures_iff.mpr fun n hn => ?_)
    hstart).of_ok h
  have hstep := parsingStep_asked (parsing_step_ok.mp hn)
  cases n with
  | more t' => exact Eq.trans hstep ht
  | stop t' => exact Eq.trans hstep ht

/-- **No request is lost**, and they are handed out in order. -/
theorem run_asked {pieces : List Bytes} (h : run parse pieces q = .ok q') : asked q' = asked q :=
  run_induction (P := fun _ t => asked t = asked q) rfl
    (fun _ _ _ _ _ hs hstep => (parse_asked hstep).trans hs) h

theorem asked_resting (requests : List HTTPRequest) : asked (resting requests []) = requests := rfl

end HTTPResponseParser

/-! ### The connection -/

namespace Connection

variable {c c' : Connection} {events done : List ProxyEvent}

/-- What the client has sent, piece by piece. -/
def clientPieces (events : List ProxyEvent) : List Bytes :=
  events.filterMap fun
    | .clientIn buffer => some buffer
    | _ => none

def serverPieces (events : List ProxyEvent) : List Bytes :=
  events.filterMap fun
    | .serverIn buffer => some buffer
    | _ => none

/-- `sent` has been written to the server, and `answered` to the client. -/
structure PassedOn (events : List ProxyEvent) (sent : List HTTPRequest)
    (answered : List HTTPResponse) (c : Connection) : Prop where
  requests : run parse (clientPieces events) HTTPRequestParser.new =
    .ok (c.requestParser.behind sent)
  responses : run parse (serverPieces events) (HTTPResponseParser.expecting sent) =
    .ok (c.responseParser.behind answered)
  toServer : c.writtenToServer = sent.flatMap (·.text)
  toClient : c.writtenToClient = answered.flatMap (·.text)
  saved : c.saved = answered.map fun m => (m.members.request.record, m.record)

theorem clientPieces_append (event : ProxyEvent) :
    clientPieces (done ++ [event]) = clientPieces done ++ clientPieces [event] :=
  List.filterMap_append

theorem serverPieces_append (event : ProxyEvent) :
    serverPieces (done ++ [event]) = serverPieces done ++ serverPieces [event] :=
  List.filterMap_append

section Events

variable {sent : List HTTPRequest} {answered : List HTTPResponse}

theorem PassedOn.serverIn {buffer : Bytes} (h : PassedOn done sent answered c)
    (hstep : step (.serverIn buffer) c = .ok c') :
    PassedOn (done ++ [.serverIn buffer]) sent answered c' := by
  obtain ⟨q, hparse, hstep⟩ := bind_ok.mp hstep
  cases hstep
  refine ⟨?_, ?_, h.toServer, h.toClient, h.saved⟩
  · rw [clientPieces_append]
    exact (congrArg (run parse · _) (List.append_nil _)).trans h.requests
  · rw [serverPieces_append, run_append, h.responses, ok_bind]
    exact (run_singleton _ _).trans (parse_behind answered (of_mapError_ok hparse))

theorem PassedOn.clientIn {buffer : Bytes} (h : PassedOn done sent answered c)
    (hstep : step (.clientIn buffer) c = .ok c') :
    PassedOn (done ++ [.clientIn buffer]) sent answered c' := by
  obtain ⟨q, hparse, hstep⟩ := bind_ok.mp hstep
  cases hstep
  refine ⟨?_, ?_, h.toServer, h.toClient, h.saved⟩
  · rw [clientPieces_append, run_append, h.requests, ok_bind]
    exact (run_singleton _ _).trans (parse_behind sent (of_mapError_ok hparse))
  · rw [serverPieces_append]
    exact (congrArg (run parse · _) (List.append_nil _)).trans h.responses

/-- An event that writes has read nothing. -/
theorem PassedOn.unread {event : ProxyEvent} (h : PassedOn done sent answered c)
    (hclient : clientPieces [event] = []) (hserver : serverPieces [event] = []) :
    PassedOn (done ++ [event]) sent answered c where
  requests := by
    rw [clientPieces_append, hclient, List.append_nil]
    exact h.requests
  responses := by
    rw [serverPieces_append, hserver, List.append_nil]
    exact h.responses
  toServer := h.toServer
  toClient := h.toClient
  saved := h.saved

/-- The request at the front goes to the server, if there is one. -/
theorem PassedOn.serverOut (h : PassedOn done sent answered c)
    (hstep : step .serverOut c = .ok c') :
    ∃ sent', PassedOn (done ++ [.serverOut]) sent' answered c' := by
  have hunread : PassedOn (done ++ [.serverOut]) sent answered c := h.unread rfl rfl
  obtain ⟨hrequests, hresponses, htoServer, htoClient, hsaved⟩ := hunread
  unfold Connection.step at hstep
  dsimp only at hstep
  split at hstep
  · cases hstep
    exact ⟨sent, hrequests, hresponses, htoServer, htoClient, hsaved⟩
  next request waiting heq =>
    obtain ⟨str, hstr, hstep⟩ := bind_ok.mp hstep
    cases hstep
    have htext : str = request.text := by
      obtain ⟨_, -, hstr⟩ := bind_ok.mp hstr
      cases hstr
      rfl
    refine ⟨sent ++ [request], ?_, ?_, ?_, htoClient, hsaved⟩
    · rw [hrequests]
      simp [behind, pop, heq]
    · -- the request that is registered waits behind those that were there
      have hbeside := HTTPResponseParser.run_beside [] [request] _ hresponses
      simp only [HTTPResponseParser.expecting, List.foldl_append] at hbeside ⊢
      exact hbeside
    · rw [List.flatMap_append, ← htoServer, List.flatMap_singleton, htext]

/-- The response at the front is saved and goes to the client, if there is one. -/
theorem PassedOn.clientOut (h : PassedOn done sent answered c)
    (hstep : step .clientOut c = .ok c') :
    ∃ answered', PassedOn (done ++ [.clientOut]) sent answered' c' := by
  have hunread : PassedOn (done ++ [.clientOut]) sent answered c := h.unread rfl rfl
  obtain ⟨hrequests, hresponses, htoServer, htoClient, hsaved⟩ := hunread
  unfold Connection.step at hstep
  dsimp only at hstep
  split at hstep
  · cases hstep
    exact ⟨answered, hrequests, hresponses, htoServer, htoClient, hsaved⟩
  next response waiting heq =>
    obtain ⟨str, hstr, hstep⟩ := bind_ok.mp hstep
    obtain ⟨request, hrequest, hstep⟩ := bind_ok.mp hstep
    obtain ⟨record, hrecord, hstep⟩ := bind_ok.mp hstep
    cases hstep
    obtain ⟨_, -, hstr⟩ := bind_ok.mp hstr
    obtain ⟨_, -, hrequest⟩ := bind_ok.mp hrequest
    obtain ⟨_, -, hrecord⟩ := bind_ok.mp hrecord
    cases hstr
    cases hrequest
    cases hrecord
    refine ⟨answered ++ [response], hrequests, ?_, htoServer, ?_, ?_⟩
    · rw [hresponses]
      simp [behind, pop, heq]
    · rw [List.flatMap_append, ← htoClient, List.flatMap_singleton]
    · rw [List.map_append, ← hsaved, List.map_singleton]

end Events

/-- **An event passes on what it takes.** -/
theorem PassedOn.step {sent : List HTTPRequest} {answered : List HTTPResponse} {event : ProxyEvent}
    (h : PassedOn done sent answered c) (hstep : step event c = .ok c') :
    ∃ sent' answered', PassedOn (done ++ [event]) sent' answered' c' := by
  cases event with
  | serverIn buffer => exact ⟨sent, answered, h.serverIn hstep⟩
  | clientIn buffer => exact ⟨sent, answered, h.clientIn hstep⟩
  | serverOut =>
      obtain ⟨sent', h'⟩ := h.serverOut hstep
      exact ⟨sent', answered, h'⟩
  | clientOut =>
      obtain ⟨answered', h'⟩ := h.clientOut hstep
      exact ⟨sent, answered', h'⟩

theorem passedOn_start : PassedOn [] [] [] {} where
  requests := rfl
  responses := rfl
  toServer := rfl
  toClient := rfl
  saved := rfl

theorem run_passedOn (h : run step events {} = .ok c) :
    ∃ sent answered, PassedOn events sent answered c :=
  run_induction (P := fun done c => ∃ sent answered, PassedOn done sent answered c)
    ⟨[], [], passedOn_start⟩ (fun _ _ _ _ _ ⟨_, _, hs⟩ hstep => hs.step hstep) h

/-- **The proxy is transparent**, in every interleaving.  The server gets the first requests that
the client's bytes make up; the client gets the first responses that the server's bytes make up
for these requests; and each saved response stands with the request that was sent for it. -/
theorem proxy_transparent (h : run step events {} = .ok c) :
    ∃ sent answered,
      run parse (clientPieces events) HTTPRequestParser.new =
        .ok { c.requestParser with
          completeMessages := sent ++ c.requestParser.completeMessages } ∧
      run parse (serverPieces events) (HTTPResponseParser.expecting sent) =
        .ok { c.responseParser with
          completeMessages := answered ++ c.responseParser.completeMessages } ∧
      c.writtenToServer = sent.flatMap (·.text) ∧
      c.writtenToClient = answered.flatMap (·.text) ∧
      c.saved.map Prod.snd = answered.map (·.record) ∧
      c.saved.map Prod.fst = (sent.take answered.length).map (·.record) := by
  obtain ⟨sent, answered, hpassed⟩ := run_passedOn h
  have hasked := HTTPResponseParser.run_asked hpassed.responses
  rw [HTTPResponseParser.expecting_eq] at hasked
  -- the requests of the responses that were answered come first
  have hprefix : answered.map (·.members.request) = sent.take answered.length := by
    have hrequests : answered.map (·.members.request) ++
        HTTPResponseParser.asked c.responseParser = sent := by
      refine Eq.trans ?_ (hasked.trans (HTTPResponseParser.asked_resting sent))
      simp only [HTTPResponseParser.asked, behind, List.map_append, List.append_assoc]
    rw [← hrequests, List.take_left' (List.length_map _)]
  refine ⟨sent, answered, hpassed.requests, hpassed.responses, hpassed.toServer, hpassed.toClient,
    ?_, ?_⟩
  · rw [hpassed.saved, List.map_map]
    rfl
  · rw [hpassed.saved, List.map_map, ← hprefix, List.map_map]
    rfl

end Connection

end Mahimahi
