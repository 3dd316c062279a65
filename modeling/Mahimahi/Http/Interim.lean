import Mahimahi.Http.Pairing

/-!
# Http — interim responses

A server may send any number of interim responses, of status 1xx, in front of the response to a
request.  They have no body, and the parser reads them as responses of their own: each takes a
request, so that the response behind them is paired with a later one.

* `resume_interims`: what interim responses do to the parser.
* `Stream.reads_iff`: what a stream reads as with interim responses in it.
* `interims_undisturbed_iff`: when that is the same responses, in any pieces.
-/

open Fallible

namespace Mahimahi

open Search Ezio Loops HTTPMessageSequence

/-- A response of status 1xx, which ends with its headers. -/
structure SentResponse.IsInterim (r : SentResponse) : Prop where
  code : r.status.code.head? = some 49
  body : r.body = []

namespace HTTPResponse

variable {m m' : HTTPResponse} {r : SentResponse} {request : HTTPRequest}

/-- The status is 1xx. -/
def isInterim (m : HTTPResponse) : Bool :=
  match m.statusCode with
  | .ok [49, d, d'] => isDigit 10 d && isDigit 10 d'
  | _ => false

theorem isInterim_congr (h : m.state ≠ .firstLinePending) (h' : m'.state ≠ .firstLinePending)
    (hline : m.firstLine = m'.firstLine) : m.isInterim = m'.isInterim := by
  rw [isInterim, isInterim, statusCode, statusCode, assert_pos h, assert_pos h', hline]

theorem isInterim_eq (hstate : m.state ≠ .firstLinePending) (hline : m.firstLine = r.status.text)
    (h : r.IsInterim) : m.isInterim = true := by
  have hlength := r.status.code_length
  have hdigits := r.status.code_digits
  have hhead := h.code
  rw [isInterim, statusCode_eq hstate hline]
  obtain ⟨c, d, d', hcode⟩ := List.length_eq_three.mp hlength
  rw [hcode] at hdigits hhead ⊢
  cases hhead
  show (isDigit 10 d && isDigit 10 d') = true
  rw [hdigits d (by simp), hdigits d' (by simp)]
  rfl

/-- Rule 1 does not look at the request of an interim response. -/
theorem calculate_interim (request : HTTPRequest) (h : r.IsInterim) :
    (r.headed request).calculateExpectedBodySize =
      .ok { r.headed request with expectedBodySize := (true, r.body.length) } := by
  have hcode : (r.headed request).statusCode = .ok r.status.code :=
    statusCode_eq (by rw [r.headed_state]; decide) rfl
  have hnone : (r.headed request).hasNoBody = .ok true := by
    rw [hasNoBody, hcode, ok_bind]
    have hhead := h.code
    cases hcode : r.status.code with
    | nil => rw [hcode] at hhead; cases hhead
    | cons c code =>
        rw [hcode] at hhead
        cases hhead
        exact if_pos (.inl rfl)
  rw [calculateExpectedBodySize, assert_pos (r.headed_state request), ok_bind, hnone, ok_bind,
    if_pos rfl, h.body]
  rfl

end HTTPResponse

namespace HTTPResponseParser

variable {q q' : HTTPResponseParser} {cs : List HTTPResponse} {Q : List HTTPRequest}
  {request : HTTPRequest} {r : SentResponse} {w rest : Bytes}

/-! ### What interim responses do -/

theorem resume_interim (request : HTTPRequest) (Q : List HTTPRequest) (cs : List HTTPResponse)
    (rest : Bytes) (h : r.IsInterim) : ∃ m : HTTPResponse, m.isInterim = true ∧
    resume (r.text ++ rest) (resting (request :: Q) cs) =
      resume rest (resting Q (cs ++ [m])) := by
  obtain ⟨m, hexchange, hstate, hleads⟩ := leads_sized Q cs rest
    (HTTPResponse.calculate_interim request h)
  have hline : m.firstLine = r.status.text := congrArg Exchange.firstLine hexchange
  exact ⟨m, HTTPResponse.isInterim_eq (by rw [hstate]; decide) hline h, hleads.reaches.run_eq⟩

/-- Each takes a request. -/
theorem resume_interims (rs : List SentResponse) (h : ∀ r ∈ rs, r.IsInterim) (rest : Bytes) :
    ∀ {Q : List HTTPRequest} (cs : List HTTPResponse), rs.length ≤ Q.length →
      ∃ ms : List HTTPResponse, (∀ m ∈ ms, m.isInterim = true) ∧
        resume (rs.flatMap SentResponse.text ++ rest) (resting Q cs) =
          resume rest (resting (Q.drop rs.length) (cs ++ ms)) := by
  induction rs with
  | nil =>
      intro Q cs _
      exact ⟨[], List.forall_mem_nil _, by rw [List.append_nil]; rfl⟩
  | cons r rs ih =>
      intro Q cs hle
      obtain ⟨hr, hrs⟩ := List.forall_mem_cons.mp h
      cases Q with
      | nil => exact absurd hle (Nat.not_succ_le_zero _)
      | cons request Q =>
          obtain ⟨m, hm, hfirst⟩ := resume_interim request Q cs
            (rs.flatMap SentResponse.text ++ rest) hr
          obtain ⟨ms, hms, hothers⟩ := ih hrs (cs ++ [m]) (Nat.le_of_succ_le_succ hle)
          refine ⟨m :: ms, List.forall_mem_cons.mpr ⟨hm, hms⟩, ?_⟩
          rw [List.flatMap_cons, List.append_assoc, hfirst, hothers, List.append_assoc]
          rfl

/-- A first line without a request is refused. -/
theorem resume_noRequest (h : CRLF <:+: w) : ∃ e, resume w (resting [] cs) = .error e := by
  cases hline : find CRLF w with
  | none => exact absurd h (find_eq_none.mp hline)
  | some i =>
      refine ⟨(.noMatchingRequest, cs), Loop.run_error ?_⟩
      have hbuffer : ((resting [] cs).append w).buffer = w := List.nil_append w
      rw [parsing_step, parsingStep_firstLine (q := (resting [] cs).append w) rfl, hbuffer, hline]
      rfl

/-- When the interim responses take all requests, what follows is refused. -/
theorem resume_exhausted (rs : List SentResponse) (h : ∀ r ∈ rs, r.IsInterim)
    (hrest : CRLF <:+: rest) : ∀ {Q : List HTTPRequest} (cs : List HTTPResponse),
      Q.length ≤ rs.length →
        ∃ e, resume (rs.flatMap SentResponse.text ++ rest) (resting Q cs) = .error e := by
  induction rs with
  | nil =>
      intro Q cs hle
      rw [List.length_eq_zero_iff.mp (Nat.le_zero.mp hle)]
      exact resume_noRequest hrest
  | cons r rs ih =>
      intro Q cs hle
      obtain ⟨hr, hrs⟩ := List.forall_mem_cons.mp h
      cases Q with
      | nil => exact resume_noRequest (hrest.trans (List.suffix_append _ _).isInfix)
      | cons request Q =>
          obtain ⟨m, -, hfirst⟩ := resume_interim request Q cs
            (rs.flatMap SentResponse.text ++ rest) hr
          rw [List.flatMap_cons, List.append_assoc, hfirst]
          exact ih hrs _ (Nat.le_of_succ_le_succ hle)

/-! ### A response that the parser accepts -/

/-- An end of file, or none. -/
def ending (eof : Bool) : List Bytes := if eof then [[]] else []

theorem expecting_singleton (request : HTTPRequest) : expecting [request] = resting [request] [] :=
  rfl

theorem beside_resting {requests : List HTTPRequest} {ms : List HTTPResponse} :
    beside cs Q (resting requests ms) = resting (requests ++ Q) (cs ++ ms) := rfl

theorem resting_good : (resting Q cs).Good cuttable.toKept := fun _ => cuttable.initial

/-- Without a line, a parser that is at rest waits. -/
theorem parse_wait (hmessage : q.messageInProgress = HTTPMessage.new)
    (hline : find CRLF (q.buffer ++ w) = none) : parse w q = .ok (q.append w) := by
  have heof : (if w.isEmpty then q.messageInProgress.eof else .ok q.messageInProgress) =
      .ok q.messageInProgress := by
    rw [hmessage]
    split <;> rfl
  have hstate : (q.append w).messageInProgress.state = .firstLinePending :=
    congrArg HTTPMessage.state hmessage
  rw [parse, heof]
  refine Loop.run_stop (parsing_step_ok.mpr ?_)
  rw [parsingStep_firstLine hstate, show find CRLF (q.append w).buffer = none from hline]

/-- The first line begins a message with the next request. -/
theorem resume_begun {i : Nat} (hline : find CRLF w = some i)
    (h : resume (w ++ rest) (resting (request :: Q) cs) = .ok q') :
    Begun request (w.take i) cs q' := by
  let q₀ : HTTPResponseParser := (resting (request :: Q) cs).append (w ++ rest)
  have hbuffer : q₀.buffer = w ++ rest := List.nil_append _
  have hle : i ≤ w.length := by have := find_le hline; omega
  have hstep : parsingStep q₀ = .ok (.more { (resting Q cs) with
      buffer := q₀.buffer.drop (i + 2)
      messageInProgress :=
        { firstLine := w.take i, state := .headersPending, members := { request } } }) := by
    rw [parsingStep_firstLine (q := q₀) rfl, hbuffer, find_append hline]
    dsimp only
    rw [List.take_append_of_le_length hle]
    rfl
  refine run_begun ((Loop.run_more (parsing_step_ok.mpr hstep)).symm.trans h) (.inl ⟨rfl, ?_⟩)
  exact ⟨fun hc => (nomatch hc), rfl, rfl⟩

theorem ne_nil_of_find {i : Nat} (h : find CRLF w = some i) : w ≠ [] := by
  rintro rfl
  rw [Chunks.find_nil (by decide)] at h
  cases h

/-- A response that is accepted on its own has a first line, which its message keeps. -/
theorem accepted_begun (eof : Bool) {m : HTTPResponse}
    (h : run parse (w :: ending eof) (expecting [request]) = .ok (resting [] [m])) :
    ∃ i, find CRLF w = some i ∧ m.firstLine = w.take i ∧ m.members.request = request ∧
      m.state = .complete := by
  rw [expecting_singleton, run_cons] at h
  obtain ⟨q, hq, hend⟩ := bind_ok.mp h
  cases hline : find CRLF w with
  | none =>
      -- the parser waits, and an end of file changes nothing
      rw [parse_wait (q := resting [request] []) (w := w) rfl hline] at hq
      cases hq
      have hstays : run parse (ending eof) ((resting [request] []).append w) =
          .ok ((resting [request] []).append w) := by
        cases eof with
        | false => rfl
        | true =>
            refine (run_singleton _ _).trans
              ((parse_wait (q := (resting [request] []).append w) (w := []) rfl ?_).trans ?_)
            · rw [List.append_nil]
              exact hline
            · rw [append_append, List.append_nil]
      cases hstays.symm.trans hend
  | some i =>
      refine ⟨i, rfl, ?_⟩
      have hresume : resume (w ++ []) (resting [request] []) = .ok q := by
        rw [List.append_nil, ← parse_eq (ne_nil_of_find hline), hq]
      rcases parses_begun _ hend (resume_begun hline hresume) with
        ⟨hnil, -⟩ | ⟨m', ms, hms, hstate, hfirst, hrequest⟩
      · cases hnil
      · cases hms
        exact ⟨hfirst, hrequest, hstate⟩

/-- So it is, whatever comes before and behind it. -/
theorem resume_accepted {m : HTTPResponse}
    (h : parse w (expecting [request]) = .ok (resting [] [m])) :
    resume (w ++ rest) (resting (request :: Q) cs) = resume rest (resting Q (cs ++ [m])) := by
  obtain ⟨i, hline, -⟩ := accepted_begun false ((run_singleton _ _).trans h)
  have hbeside := parse_beside cs Q h
  rw [expecting_singleton, beside_resting, beside_resting, List.append_nil,
    parse_eq (ne_nil_of_find hline)] at hbeside
  exact (resume_append cuttable resting_good hbeside rest).1

theorem resume_accepted_eof {m : HTTPResponse}
    (h : run parse [w, []] (expecting [request]) = .ok (resting [] [m])) :
    (resume w (resting (request :: Q) cs) >>= run parse (ending true)) =
      .ok (resting Q (cs ++ [m])) := by
  obtain ⟨i, hline, -⟩ := accepted_begun true h
  rw [run_cons] at h
  obtain ⟨q, hq, hend⟩ := bind_ok.mp h
  rw [run_singleton] at hend
  have hfirst := parse_beside cs Q hq
  rw [expecting_singleton, beside_resting, List.append_nil,
    parse_eq (ne_nil_of_find hline)] at hfirst
  rw [show resume w (resting (request :: Q) cs) = _ from hfirst, ok_bind]
  exact (run_singleton _ _).trans (parse_beside cs Q hend)

/-! ### A stream with interim responses -/

/-- The responses of a stream, each of them accepted with its request, and none of them interim.
The last one may end with the stream. -/
inductive Stream (eof : Bool) : List HTTPRequest → List Bytes → List HTTPResponse → Prop where
  | nil {requests : List HTTPRequest} : Stream eof requests [] []
  | cons {request : HTTPRequest} {requests : List HTTPRequest} {w : Bytes} {ws : List Bytes}
      {m : HTTPResponse} {ms : List HTTPResponse}
      (h : parse w (expecting [request]) = .ok (resting [] [m])) (hm : m.isInterim = false)
      (hs : Stream eof requests ws ms) : Stream eof (request :: requests) (w :: ws) (m :: ms)
  | last {request : HTTPRequest} {requests : List HTTPRequest} {w : Bytes} {m : HTTPResponse}
      (heof : eof = true) (h : run parse [w, []] (expecting [request]) = .ok (resting [] [m]))
      (hm : m.isInterim = false) : Stream eof (request :: requests) [w] [m]

/-- The stream with interim responses in front of each of its responses. -/
def inserted (interims : List (List SentResponse)) (ws : List Bytes) : Bytes :=
  (interims.zip ws).flatMap fun p => p.1.flatMap SentResponse.text ++ p.2

/-- The messages that are not interim. -/
def finals (ms : List HTTPResponse) : List HTTPResponse := ms.filter fun m => !m.isInterim

theorem finals_append (ms ms' : List HTTPResponse) : finals (ms ++ ms') = finals ms ++ finals ms' :=
  List.filter_append ms ms'

theorem finals_interims {ms : List HTTPResponse} (h : ∀ m ∈ ms, m.isInterim = true) :
    finals ms = [] :=
  List.filter_eq_nil_iff.mpr fun m hm => by rw [h m hm]; decide

theorem finals_cons {m : HTTPResponse} (h : m.isInterim = false) (ms : List HTTPResponse) :
    finals (m :: ms) = m :: finals ms :=
  List.filter_cons_of_pos (by rw [h]; rfl)

/-- The parser accepts all of `s` and completes these messages that are not interim. -/
def Reads (eof : Bool) (s : Bytes) (q : HTTPResponseParser) (ms : List HTTPResponse) : Prop :=
  ∃ q', (resume s q >>= run parse (ending eof)) = .ok q' ∧ q'.AtRest ∧
    finals q'.completeMessages = ms

variable {eof : Bool} {m : HTTPResponse} {ms : List HTTPResponse} {s : Bytes}
  {rs : List SentResponse}

/-- Interim responses take the next requests, if there are any for what follows. -/
theorem reads_interims (eof : Bool) (Q : List HTTPRequest) (cs : List HTTPResponse)
    (hrs : ∀ r ∈ rs, r.IsInterim) (hrest : CRLF <:+: rest) :
    (Q.drop rs.length = [] ∧
        ∀ ms, ¬ Reads eof (rs.flatMap SentResponse.text ++ rest) (resting Q cs) ms) ∨
      ∃ request Q' cs', Q.drop rs.length = request :: Q' ∧ finals cs' = finals cs ∧
        ∀ ms, Reads eof (rs.flatMap SentResponse.text ++ rest) (resting Q cs) ms ↔
          Reads eof rest (resting (request :: Q') cs') ms := by
  cases hdrop : Q.drop rs.length with
  | nil =>
      refine .inl ⟨rfl, fun ms ⟨q', hq', _⟩ => ?_⟩
      obtain ⟨e, he⟩ := resume_exhausted rs hrs hrest cs (List.drop_eq_nil_iff.mp hdrop)
      rw [he] at hq'
      cases hq'
  | cons request Q' =>
      have hle : rs.length ≤ Q.length := by
        by_contra hlt
        rw [List.drop_of_length_le (Nat.not_le.mp hlt).le] at hdrop
        cases hdrop
      obtain ⟨interims, hinterims, hread⟩ := resume_interims rs hrs rest cs hle
      refine .inr ⟨request, Q', cs ++ interims, rfl, ?_, fun ms => ?_⟩
      · rw [finals_append, finals_interims hinterims, List.append_nil]
      · rw [Reads, Reads, hread, hdrop]

/-- A response that is read as it was accepted has its own request. -/
theorem request_of_reads {i : Nat} {request' : HTTPRequest} (hline : find CRLF w = some i)
    (hfirst : m.firstLine = w.take i) (hstate : m.state = .complete) (hm : m.isInterim = false)
    (h : Reads eof (w ++ rest) (resting (request' :: Q) cs) (finals cs ++ m :: ms)) :
    request' = m.members.request := by
  obtain ⟨q', hread, hrest, hfinals⟩ := h
  obtain ⟨q, hq, hend⟩ := bind_ok.mp hread
  rcases parses_begun _ hend (resume_begun hline hq) with
    ⟨-, hpending, -⟩ | ⟨m', ms', hms', hstate', hfirst', hrequest'⟩
  · exact absurd (congrArg HTTPMessage.state hrest.message) hpending
  · have hm' : m'.isInterim = false := by
      rw [← hm]
      exact HTTPResponse.isInterim_congr (by rw [hstate']; decide) (by rw [hstate]; decide)
        (hfirst'.trans hfirst.symm)
    rw [hms', finals_append, finals_cons hm'] at hfinals
    have hsame := List.head_eq_of_cons_eq (List.append_cancel_left hfinals)
    rw [← hsame, hrequest']

/-- The requests that responses are read with, when interim responses stand in front of each. -/
def Meets (interims : List (List SentResponse)) (Q requests : List HTTPRequest) (n : Nat) : Prop :=
  ∀ i < n, Q[i + (interims.take (i + 1)).flatten.length]? = requests[i]?

theorem meets_cons {interims : List (List SentResponse)} {requests : List HTTPRequest} {n : Nat} :
    Meets (rs :: interims) Q (request :: requests) (n + 1) ↔
      ∃ Q', Q.drop rs.length = request :: Q' ∧ Meets interims Q' requests n := by
  have hfirst : 0 + ((rs :: interims).take 1).flatten.length = rs.length + 0 := by
    rw [List.take_succ_cons, List.take_zero, List.flatten_singleton, Nat.zero_add, Nat.add_zero]
  have hnext : ∀ i, i + 1 + ((rs :: interims).take (i + 1 + 1)).flatten.length =
      rs.length + (i + (interims.take (i + 1)).flatten.length + 1) := by
    intro i
    rw [List.take_succ_cons, List.flatten_cons, List.length_append]
    omega
  constructor
  · intro h
    have h₀ := h 0 (Nat.succ_pos n)
    rw [hfirst, ← List.getElem?_drop] at h₀
    cases hdrop : Q.drop rs.length with
    | nil => rw [hdrop] at h₀; cases h₀
    | cons request' Q' =>
        rw [hdrop] at h₀
        cases h₀
        refine ⟨Q', rfl, fun i hi => ?_⟩
        have hi' := h (i + 1) (Nat.succ_lt_succ hi)
        rw [hnext, ← List.getElem?_drop, hdrop] at hi'
        exact hi'
  · rintro ⟨Q', hdrop, h⟩ i hi
    cases i with
    | zero =>
        rw [hfirst, ← List.getElem?_drop, hdrop]
        rfl
    | succ i =>
        rw [hnext, ← List.getElem?_drop, hdrop]
        exact h i (Nat.lt_of_succ_lt_succ hi)

theorem inserted_cons (interims : List (List SentResponse)) (w : Bytes) (ws : List Bytes) :
    inserted (rs :: interims) (w :: ws) =
      rs.flatMap SentResponse.text ++ (w ++ inserted interims ws) := by
  rw [inserted, List.zip_cons_cons, List.flatMap_cons, List.append_assoc]
  rfl

/-- The first response of a stream: it is read as it was accepted only with its own request. -/
theorem reads_cons_iff {interims : List (List SentResponse)} {requests : List HTTPRequest} {n : Nat}
    (hrs : ∀ r ∈ rs, r.IsInterim)
    (hbegun : ∃ i, find CRLF w = some i ∧ m.firstLine = w.take i ∧
      m.members.request = request ∧ m.state = .complete) (hm : m.isInterim = false)
    (hrest : ∀ {Q cs}, Reads eof (w ++ s) (resting (request :: Q) cs) (finals cs ++ m :: ms) ↔
      Meets interims Q requests n) :
    Reads eof (rs.flatMap SentResponse.text ++ (w ++ s)) (resting Q cs) (finals cs ++ m :: ms) ↔
      Meets (rs :: interims) Q (request :: requests) (n + 1) := by
  obtain ⟨i, hline, hfirst, hrequest, hstate⟩ := hbegun
  have hcrlf : CRLF <:+: w ++ s :=
    ((isPrefix_of_find hline).isInfix.trans (List.drop_suffix i w).isInfix).trans
      (List.prefix_append w s).isInfix
  rw [meets_cons]
  rcases reads_interims eof Q cs hrs hcrlf with
    ⟨hnil, hnot⟩ | ⟨request', Q', cs', hdrop, hfinals, hreads⟩
  · refine iff_of_false (hnot _) ?_
    rintro ⟨Q', hdrop, -⟩
    cases hnil.symm.trans hdrop
  · rw [hreads, ← hfinals, hdrop]
    constructor
    · intro h
      have hsame := (request_of_reads hline hfirst hstate hm h).trans hrequest
      rw [hsame] at h ⊢
      exact ⟨Q', rfl, hrest.mp h⟩
    · rintro ⟨Q'', heq, hmeets⟩
      cases heq
      exact hrest.mpr hmeets

/-- **What a stream reads as** with interim responses in it: its own messages, when every response
meets its own request. -/
theorem Stream.reads_iff {requests : List HTTPRequest} {ws : List Bytes}
    (hs : Stream eof requests ws ms) :
    ∀ {interims : List (List SentResponse)} {Q : List HTTPRequest} (cs : List HTTPResponse),
      interims.length = ws.length → (∀ rs ∈ interims, ∀ r ∈ rs, r.IsInterim) →
        (Reads eof (inserted interims ws) (resting Q cs) (finals cs ++ ms) ↔
          Meets interims Q requests ws.length) := by
  induction hs with
  | nil =>
      intro interims Q cs hlength _
      refine iff_of_true ⟨resting Q cs, ?_, atRest_resting, by rw [List.append_nil]; rfl⟩
        fun i hi => absurd hi (Nat.not_lt_zero i)
      rw [List.length_eq_zero_iff.mp hlength]
      cases eof <;> rfl
  | @cons request requests w ws m ms h hm _ ih =>
      intro interims Q cs hlength hinterims
      obtain ⟨rs, interims, rfl⟩ := List.exists_cons_of_length_eq_add_one hlength
      obtain ⟨hrs, hothers⟩ := List.forall_mem_cons.mp hinterims
      rw [inserted_cons]
      refine reads_cons_iff hrs (accepted_begun false ((run_singleton _ _).trans h)) hm
        fun {Q cs} => ?_
      have hmessages : finals cs ++ m :: ms = finals (cs ++ [m]) ++ ms := by
        rw [finals_append, finals_cons hm, List.append_assoc]
        rfl
      rw [Reads, resume_accepted h, hmessages]
      exact ih _ (Nat.succ.inj hlength) hothers
  | @last request requests w m heof h hm =>
      intro interims Q cs hlength hinterims
      obtain ⟨rs, rfl⟩ := List.length_eq_one_iff.mp hlength
      have hrs := List.forall_mem_singleton.mp hinterims
      cases heof
      rw [inserted_cons]
      refine reads_cons_iff hrs (accepted_begun true h) hm fun {Q cs} => ?_
      refine iff_of_true ⟨resting Q (cs ++ [m]), ?_, atRest_resting, ?_⟩
        fun i hi => absurd hi (Nat.not_lt_zero i)
      · rw [inserted, List.zip_nil_left, List.flatMap_nil, List.append_nil]
        exact resume_accepted_eof h
      · show finals (cs ++ [m]) = _
        rw [finals_append, finals_cons hm]
        rfl

/-- Without interim responses, the stream is read as it was accepted. -/
theorem Stream.run_pieces {requests : List HTTPRequest} {ws : List Bytes}
    (hs : Stream eof requests ws ms) : ∀ cs, run parse (ws ++ ending eof) (resting requests cs) =
      .ok (resting (requests.drop ws.length) (cs ++ ms)) := by
  induction hs with
  | nil =>
      intro cs
      rw [List.append_nil]
      cases eof <;> rfl
  | @cons request requests w ws m ms h _ _ ih =>
      intro cs
      have hfirst := parse_beside cs requests h
      rw [expecting_singleton, beside_resting, beside_resting, List.append_nil] at hfirst
      rw [List.cons_append, run_cons, show parse w (resting (request :: requests) cs) = _ from hfirst,
        ok_bind]
      refine (ih (cs ++ [m])).trans ?_
      rw [List.append_assoc]
      rfl
  | @last request requests w m heof h _ =>
      intro cs
      cases heof
      have hlast := run_beside cs requests [w, []] h
      rw [expecting_singleton, beside_resting, beside_resting, List.append_nil] at hlast
      exact hlast

/-- The parser accepts the pieces, and completes these messages that are not interim. -/
def Undisturbed (eof : Bool) (requests : List HTTPRequest) (pieces : List Bytes)
    (ms : List HTTPResponse) : Prop :=
  ∃ q, run parse (pieces ++ ending eof) (expecting requests) = .ok q ∧ q.AtRest ∧
    finals q.completeMessages = ms

/-- In one piece, or in any where no chunk's size wraps. -/
theorem undisturbed_iff {requests : List HTTPRequest} {pieces : List Bytes} (hcut : Cut s pieces)
    (hwrap : pieces.length ≤ 1 ∨ WrapFree (.append (expecting requests) s)) :
    Undisturbed eof requests pieces ms ↔ Reads eof s (resting requests []) ms := by
  have hexpecting : expecting requests = resting requests [] := expecting_eq requests
  have hagree : Agree (run parse pieces (expecting requests)) (resume s (resting requests [])) := by
    rw [hexpecting] at hwrap ⊢
    obtain ⟨rfl, hne⟩ := hcut
    rcases hwrap with hone | hwrap
    · have hsame : run parse pieces (resting requests []) =
          resume pieces.flatten (resting requests []) := by
        match pieces, hone with
        | [], _ => rfl
        | [x], _ =>
            rw [run_singleton, List.flatten_singleton]
            exact parse_eq (hne x List.mem_cons_self)
      rw [hsame]
      cases resume pieces.flatten (resting requests []) <;> exact rfl
    · exact feed_agrees cuttable hne resting_good resume_nil hwrap
  rw [Undisturbed, Reads, run_append]
  cases hrun : run parse pieces (expecting requests) with
  | error e =>
      rw [hrun] at hagree
      cases hresume : resume s (resting requests []) with
      | error e' => exact iff_of_false (fun ⟨_, h, _⟩ => nomatch h) fun ⟨_, h, _⟩ => nomatch h
      | ok q' => rw [hresume] at hagree; exact hagree.elim
  | ok q =>
      rw [hrun] at hagree
      cases hresume : resume s (resting requests []) with
      | error e' => rw [hresume] at hagree; exact hagree.elim
      | ok q' =>
          rw [hresume] at hagree
          rw [show q = q' from hagree]

end HTTPResponseParser

open HTTPResponseParser

/-- **When interim responses do not disturb the pairing.**  The stream of responses is read as it
was accepted, and with interim responses in front of its responses it is read as the same ones
exactly when every response meets its own request again behind those that interim responses take. -/
theorem interims_undisturbed_iff {eof : Bool} {requests : List HTTPRequest} {ws : List Bytes}
    {ms : List HTTPResponse} (hs : Stream eof requests ws ms)
    {interims : List (List SentResponse)} (hlength : interims.length = ws.length)
    (hinterims : ∀ rs ∈ interims, ∀ r ∈ rs, r.IsInterim) {pieces : List Bytes}
    (hcut : Cut (inserted interims ws) pieces)
    (hwrap : pieces.length ≤ 1 ∨
      WrapFree (.append (HTTPResponseParser.expecting requests) (inserted interims ws))) :
    run parse (ws ++ ending eof) (HTTPResponseParser.expecting requests) =
        .ok (resting (requests.drop ws.length) ms) ∧
      (Undisturbed eof requests pieces ms ↔ ∀ i < ws.length,
        requests[i + (interims.take (i + 1)).flatten.length]? = requests[i]?) := by
  refine ⟨?_, ?_⟩
  · rw [expecting_eq]
    exact hs.run_pieces []
  · rw [undisturbed_iff hcut hwrap]
    exact hs.reads_iff [] hlength hinterims

/-! ### A request that expects to be continued -/

def continueResponse : SentResponse where
  status := {
    version := ascii "HTTP/1.1"
    code := ascii "100"
    reason := ascii "Continue"
    version_space := version_no_space
    code_length := by decide +kernel
    code_digits := by decide +kernel
    isLine := by decide +kernel }
  fields := []
  body := []

def emptyResponse : Bytes := ascii "HTTP/1.1 200 OK\r\nContent-Length: 0\r\n\r\n"

/-- What the response to a request is read as. -/
def emptyMessage : HTTPResponse :=
  { expectedBodySize := (true, 0), firstLine := ascii "HTTP/1.1 200 OK",
    headers := [{ key := ascii "Content-Length", value := ascii "0" }], state := .complete,
    members := { request := getRequest } }

/-- With the same request twice, the response meets it again. -/
theorem interims_undisturbed_iff_twice :
    Undisturbed false [getRequest, getRequest] [continueResponse.text ++ emptyResponse]
      [emptyMessage] := by
  have hs : Stream false [getRequest, getRequest] [emptyResponse] [emptyMessage] :=
    .cons (by decide +kernel) (by decide +kernel) .nil
  have hinterims : ∀ rs ∈ [[continueResponse]], ∀ r ∈ rs, r.IsInterim := by
    intro rs hrs r hr
    rw [List.mem_singleton.mp hrs] at hr
    rw [List.mem_singleton.mp hr]
    exact ⟨by decide +kernel, rfl⟩
  have hcut : Cut (inserted [[continueResponse]] [emptyResponse])
      [continueResponse.text ++ emptyResponse] := ⟨by decide +kernel, by decide +kernel⟩
  exact (interims_undisturbed_iff hs rfl hinterims hcut (.inl (Nat.le_refl 1))).2.mpr
    (by decide +kernel)

/-- With one request, the response is refused: the interim response has taken the request. -/
theorem interim_takes_request :
    Stream false [getRequest] [emptyResponse] [emptyMessage] ∧
      ¬ Undisturbed false [getRequest] [continueResponse.text ++ emptyResponse] [emptyMessage] := by
  refine ⟨.cons (by decide +kernel) (by decide +kernel) .nil, fun ⟨q, hq, _⟩ => ?_⟩
  have hrefused : (run parse [continueResponse.text ++ emptyResponse]
      (HTTPResponseParser.expecting [getRequest])).isOk = false := by
    decide +kernel
  rw [show run parse [continueResponse.text ++ emptyResponse] _ = .ok q from hq] at hrefused
  cases hrefused

end Mahimahi
