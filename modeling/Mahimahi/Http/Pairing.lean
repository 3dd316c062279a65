import Mahimahi.Http.Framing

/-!
# Http — pairing

A response takes the first request that waits when its first line comes.

* `parse_around`: messages that are complete change nothing, and neither do members with which a
  message begins as before; `parse_beside`: nor do requests that wait behind.
* `parses_begun`: what a message has taken it keeps, with its first line.
-/

open Fallible

namespace Mahimahi

open Search Loops HTTPMessageSequence

/-! ### What waits beside a message -/

namespace HTTPMessageSequence

variable {D P : Type} [MessageType D] [SequenceType D P] {q q' : HTTPMessageSequence D P}
  {cs : List (HTTPMessage D)} {g : P → P}

/-- The parser with messages that were complete before, and with its members changed. -/
def around (cs : List (HTTPMessage D)) (g : P → P) (q : HTTPMessageSequence D P) :
    HTTPMessageSequence D P :=
  { q with
    completeMessages := cs ++ q.completeMessages
    members := g q.members }

/-- The members are used at the beginning of a message only. -/
theorem parsingStep_around (hbegin : ∀ line r, q.beginMessage line = .ok r →
      (around cs g q).beginMessage line = .ok (g r.1, r.2))
    {n : Next (HTTPMessageSequence D P) (HTTPMessageSequence D P)} (h : parsingStep q = .ok n) :
    parsingStep (around cs g q) = .ok (n.map (around cs g) (around cs g)) := by
  have hbuffer : (around cs g q).buffer = q.buffer := rfl
  have hmessage : (around cs g q).messageInProgress = q.messageInProgress := rfl
  cases hstate : q.messageInProgress.state with
  | firstLinePending =>
      rw [parsingStep_firstLine hstate] at h
      rw [parsingStep_firstLine (q := around cs g q) hstate, hbuffer]
      cases hline : find CRLF q.buffer with
      | none =>
          rw [hline] at h
          cases h
          rfl
      | some i =>
          rw [hline] at h
          obtain ⟨r, hr, rfl⟩ := of_map_ok h
          dsimp only
          rw [hbegin _ _ hr]
          rfl
  | headersPending =>
      rw [parsingStep_headers hstate] at h
      rw [parsingStep_headers (q := around cs g q) hstate, hbuffer, hmessage]
      cases hline : find CRLF q.buffer with
      | none =>
          rw [hline] at h
          cases h
          rfl
      | some i =>
          rw [hline] at h
          obtain ⟨m, hm, rfl⟩ := of_map_ok h
          dsimp only
          rw [hm]
          rfl
  | bodyPending =>
      rw [parsingStep_body hstate] at h
      rw [parsingStep_body (q := around cs g q) hstate, hbuffer, hmessage]
      obtain ⟨r, hr, h⟩ := bind_ok.mp h
      obtain ⟨_, hall, h⟩ := bind_ok.mp h
      obtain ⟨_, hle, h⟩ := bind_ok.mp h
      rw [hr, ok_bind, hall, ok_bind, hle, ok_bind]
      cases h
      split <;> rfl
  | complete =>
      rw [parsingStep_complete hstate] at h
      cases h
      rw [parsingStep_complete (q := around cs g q) hstate]
      simp only [Next.map, around, List.append_assoc]

theorem parse_around (cs : List (HTTPMessage D)) (g : P → P)
    (hbegin : ∀ (q : HTTPMessageSequence D P) line r, q.beginMessage line = .ok r →
      (around cs g q).beginMessage line = .ok (g r.1, r.2))
    {b : Bytes} (h : parse b q = .ok q') : parse b (around cs g q) = .ok (around cs g q') := by
  obtain ⟨m, hm, h⟩ := bind_ok.mp h
  have hm' : (if b.isEmpty then (around cs g q).messageInProgress.eof
      else .ok (around cs g q).messageInProgress) = .ok m := of_mapError_ok hm
  rw [parse, hm', show (Except.ok m).mapError _ = .ok m from rfl, ok_bind]
  exact Loop.run_lift (f := around cs g) (g := around cs g) (fun t n ht =>
    parsing_step_ok.mpr (parsingStep_around (hbegin t) (parsing_step_ok.mp ht))) h

end HTTPMessageSequence

namespace HTTPResponseParser

variable {q q' : HTTPResponseParser} {cs : List HTTPResponse} {Q : List HTTPRequest}

/-- The parser with more requests behind its own, and messages that were complete before. -/
def beside (cs : List HTTPResponse) (Q : List HTTPRequest) (q : HTTPResponseParser) :
    HTTPResponseParser :=
  { q with
    completeMessages := cs ++ q.completeMessages
    members := { requests := q.members.requests ++ Q } }

theorem beginMessage_beside {line : Bytes} {r : ResponseParserMembers × HTTPResponse}
    (h : q.beginMessage line = .ok r) :
    (beside cs Q q).beginMessage line = .ok ({ requests := r.1.requests ++ Q }, r.2) := by
  obtain ⟨s, hs, h⟩ := bind_ok.mp h
  have hs' : initializeNewMessage q.members q.messageInProgress = .ok s := hs
  unfold initializeNewMessage at hs'
  split at hs'
  · cases hs'
  next request requests heq =>
    obtain ⟨m, hm, hs'⟩ := bind_ok.mp hs'
    cases hs'
    obtain ⟨m', hm', h⟩ := bind_ok.mp h
    cases h
    have hbegin : SequenceType.initializeNewMessage (beside cs Q q).members q.messageInProgress =
        .ok (({ requests := requests ++ Q } : ResponseParserMembers), m) := by
      show initializeNewMessage { requests := q.members.requests ++ Q } q.messageInProgress = _
      rw [heq, initializeNewMessage, List.cons_append]
      dsimp only
      rw [hm]
      rfl
    rw [beginMessage, show (beside cs Q q).messageInProgress = q.messageInProgress from rfl, hbegin,
      ok_bind]
    dsimp only
    rw [hm']
    rfl

/-- **What waits beside a message changes nothing.** -/
theorem parse_beside (cs : List HTTPResponse) (Q : List HTTPRequest) {b : Bytes}
    (h : parse b q = .ok q') :
    parse b (beside cs Q q) = .ok (beside cs Q q') := by
  have hbegin : ∀ (q : HTTPResponseParser) line r, q.beginMessage line = .ok r →
      (beside cs Q q).beginMessage line = .ok ({ requests := r.1.requests ++ Q }, r.2) :=
    fun _ _ _ h => beginMessage_beside h
  exact parse_around cs (fun members : ResponseParserMembers =>
    ({ requests := members.requests ++ Q } : ResponseParserMembers)) hbegin h

theorem run_beside (cs : List HTTPResponse) (Q : List HTTPRequest) (pieces : List Bytes) :
    ∀ {q : HTTPResponseParser}, run parse pieces q = .ok q' →
      run parse pieces (beside cs Q q) = .ok (beside cs Q q') := by
  induction pieces with
  | nil =>
      intro q h
      cases h
      rfl
  | cons b pieces ih =>
      intro q h
      rw [run_cons] at h ⊢
      obtain ⟨q₁, hq₁, h⟩ := bind_ok.mp h
      rw [parse_beside cs Q hq₁]
      exact ih h

end HTTPResponseParser

/-! ### What a message keeps -/

namespace HTTPResponse

variable {m m' : HTTPResponse} {str : Bytes} {n : Nat}

theorem calculate_keeps (h : m.calculateExpectedBodySize = .ok m') :
    m'.firstLine = m.firstLine ∧ m'.members.request = m.members.request ∧
      m'.state = .bodyPending := by
  obtain ⟨_, hstate, h⟩ := bind_ok.mp h
  have hstate' : m.state = .bodyPending := assert_ok.mp hstate
  have hsize : ∀ {size}, m.setExpectedBodySize true size = .ok m' → m'.firstLine = m.firstLine ∧
      m'.members.request = m.members.request ∧ m'.state = .bodyPending := by
    intro size hset
    rw [HTTPMessage.setExpectedBodySize_eq hstate'] at hset
    cases hset
    exact ⟨rfl, rfl, hstate'⟩
  have hparser : ∀ {parser}, m.setBodyParser parser = .ok m' → m'.firstLine = m.firstLine ∧
      m'.members.request = m.members.request ∧ m'.state = .bodyPending := by
    intro parser hset
    rw [setBodyParser, HTTPMessage.setExpectedBodySize_eq hstate'] at hset
    cases hset
    exact ⟨rfl, rfl, hstate'⟩
  obtain ⟨none, -, h⟩ := bind_ok.mp h
  split at h
  · exact hsize h
  obtain ⟨chunked, -, h⟩ := bind_ok.mp h
  split at h
  · exact hparser h
  split at h
  · obtain ⟨value, -, h⟩ := bind_ok.mp h
    obtain ⟨size, -, h⟩ := bind_ok.mp h
    exact hsize h
  obtain ⟨multipart, -, h⟩ := bind_ok.mp h
  split at h
  · cases h
  · exact hparser h

theorem readInBody_keeps (hstate : m.state = .bodyPending) (h : m.readInBody str = .ok (n, m')) :
    m'.firstLine = m.firstLine ∧ m'.members.request = m.members.request ∧
      m'.state ≠ .firstLinePending := by
  cases hknown : m.expectedBodySize.1 with
  | true =>
      rw [HTTPMessage.readInBody_known hstate hknown] at h
      split at h
      · cases h
        refine ⟨rfl, rfl, ?_⟩
        rw [HTTPMessage.grow, hstate]
        dsimp only
        split <;> decide
      · cases h
  | false =>
      rw [HTTPMessage.readInBody_unknown hstate hknown] at h
      obtain ⟨-, parser, r, -, -, hafter⟩ := readInComplexBody_ok h
      cases r with
      | all parser' =>
          cases hafter
          exact ⟨rfl, rfl, by rw [hstate]; decide⟩
      | done k =>
          cases hafter
          exact ⟨rfl, rfl, fun hc => by cases hc⟩

theorem headerLine_keeps {line : Bytes} (h : headerLine line m = .ok m') :
    m'.firstLine = m.firstLine ∧ m'.members.request = m.members.request ∧
      m'.state ≠ .firstLinePending := by
  unfold headerLine at h
  split at h
  · obtain ⟨-, -, h⟩ := bind_ok.mp h
    obtain ⟨hline, hrequest, hstate⟩ := calculate_keeps h
    exact ⟨hline, hrequest, by rw [hstate]; decide⟩
  · obtain ⟨_, hstate, h⟩ := bind_ok.mp h
    obtain ⟨header, -, h⟩ := bind_ok.mp h
    have hstate' : m.state = .headersPending := assert_ok.mp hstate
    cases h
    exact ⟨rfl, rfl, by dsimp only; rw [hstate']; decide⟩

end HTTPResponse

namespace HTTPResponseParser

variable {q q' : HTTPResponseParser} {cs : List HTTPResponse} {request : HTTPRequest}
  {line : Bytes}

/-- Behind `cs`, the message with this request and first line is in progress, or it is complete. -/
def Begun (request : HTTPRequest) (line : Bytes) (cs : List HTTPResponse)
    (q : HTTPResponseParser) : Prop :=
  (q.completeMessages = cs ∧ q.messageInProgress.state ≠ .firstLinePending ∧
      q.messageInProgress.firstLine = line ∧ q.messageInProgress.members.request = request) ∨
    ∃ (m : HTTPResponse) (ms : List HTTPResponse), q.completeMessages = cs ++ m :: ms ∧
      m.state = .complete ∧ m.firstLine = line ∧ m.members.request = request

theorem parsingStep_begun {n : Next HTTPResponseParser HTTPResponseParser}
    (h : parsingStep q = .ok n) (hq : Begun request line cs q) :
    n.Satisfies (Begun request line cs) (Begun request line cs) := by
  rcases hq with ⟨hcs, hpending, hline, hrequest⟩ | ⟨m, ms, hcs, hm⟩
  · cases hstate : q.messageInProgress.state with
    | firstLinePending => exact absurd hstate hpending
    | headersPending =>
        rw [parsingStep_headers hstate] at h
        split at h
        · obtain ⟨m, hm, rfl⟩ := of_map_ok h
          obtain ⟨hline', hrequest', hpending'⟩ := HTTPResponse.headerLine_keeps hm
          exact .inl ⟨hcs, hpending', hline'.trans hline, hrequest'.trans hrequest⟩
        · cases h
          exact .inl ⟨hcs, hpending, hline, hrequest⟩
    | bodyPending =>
        obtain ⟨r, hr, -, hn⟩ := parsingStep_body_ok hstate h
        obtain ⟨hline', hrequest', hpending'⟩ := HTTPResponse.readInBody_keeps hstate hr
        have hbegun : Begun request line cs (q.afterBody r) :=
          .inl ⟨hcs, hpending', hline'.trans hline, hrequest'.trans hrequest⟩
        rcases hn with ⟨-, rfl⟩ | ⟨-, -, rfl⟩
        · exact hbegun
        · exact hbegun
    | complete =>
        rw [parsingStep_complete hstate] at h
        cases h
        exact .inr ⟨_, [], congrArg (· ++ [q.messageInProgress]) hcs, hstate, hline, hrequest⟩
  · -- the message is complete, and stays
    have hkeeps : ∀ q' : HTTPResponseParser, q.completeMessages <+: q'.completeMessages →
        Begun request line cs q' := by
      rintro q' ⟨more, hmore⟩
      refine .inr ⟨m, ms ++ more, ?_, hm⟩
      rw [← hmore, hcs, List.append_assoc, List.cons_append]
    cases n with
    | more q' => exact hkeeps q' (parsingStep_completes h)
    | stop q' => exact hkeeps q' (parsingStep_stop_completes h ▸ List.prefix_rfl)

theorem run_begun (h : parsing.run q = .ok q') (hq : Begun request line cs q) :
    Begun request line cs q' :=
  (Loop.ensures_run (P := Begun request line cs) (E := fun _ => True) (fun _ _ ht =>
    ensures_iff.mpr fun _ hn => parsingStep_begun (parsing_step_ok.mp hn) ht) hq).of_ok h

theorem eof_keeps {m m' : HTTPResponse} (h : m.eof = .ok m') :
    m' = m ∨ m' = { m with state := .complete } := by
  unfold HTTPMessage.eof at h
  split at h
  · cases h
    exact .inl rfl
  · cases h
  · obtain ⟨complete, -, h⟩ := bind_ok.mp h
    cases h
    cases complete with
    | true => exact .inr rfl
    | false => exact .inl rfl
  · cases h

/-- **A message keeps its request and its first line**, to the end of any pieces. -/
theorem parses_begun (pieces : List Bytes) : ∀ {q : HTTPResponseParser},
    run parse pieces q = .ok q' → Begun request line cs q → Begun request line cs q' := by
  induction pieces with
  | nil =>
      intro q h hq
      cases h
      exact hq
  | cons b pieces ih =>
      intro q h hq
      rw [run_cons] at h
      obtain ⟨q₁, hparse, h⟩ := bind_ok.mp h
      refine ih h ?_
      obtain ⟨m, hm, hrun⟩ := bind_ok.mp hparse
      refine run_begun hrun ?_
      have hm' := of_mapError_ok hm
      have hsame : m = q.messageInProgress ∨
          m = { q.messageInProgress with state := .complete } := by
        split at hm'
        · exact eof_keeps hm'
        · cases hm'
          exact .inl rfl
      rcases hsame with rfl | rfl
      · exact hq
      · exact hq.imp_left fun ⟨hcs, _, hline, hrequest⟩ =>
          ⟨hcs, fun hc => (nomatch hc), hline, hrequest⟩

end HTTPResponseParser

end Mahimahi
