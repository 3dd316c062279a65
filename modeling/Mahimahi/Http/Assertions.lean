import Mahimahi.Http.Cuts
import Mahimahi.Http.Guarded
import Mahimahi.Http.Proxy

/-!
# Http — assertions on a connection

A failed assertion stops the whole process, an exception only the connection.

* `HTTPRequestParser.guarded`, `HTTPResponseParser.guarded`: what the messages of the two parsers
  keep.
* `Connection.step_ensures`: so an event fails no assertion, unless a chunk is not followed by CRLF
  (`HTTPResponseParser.Misends`).
* `never_asserts_iff`: the same of all that a client and a server can send.
-/

open Fallible

namespace Mahimahi

open Search Loops HTTPMessageSequence

/-! ### The bytes behind a chunk -/

theorem readInteger_ensures (base : Nat) (str : Bytes) :
    Ensures IsException (fun _ => True) (readInteger base str) := by
  unfold readInteger
  cases Ezio.myatoi base str with
  | ok v => exact trivial
  | error e => exact fun h => nomatch h

theorem substr_ensures (str : Bytes) (pos n : Nat) :
    Ensures IsException (fun _ => True) (substr str pos n) := by
  unfold substr
  split
  · exact fun h => nomatch h
  · exact trivial

/-- A line with its CRLF is read as a chunk header, or refused with an exception. -/
theorem getChunkSize_ensures {buffer : Bytes} {i : Nat} (h : find CRLF buffer = some i) :
    Ensures IsException (fun _ => True) (getChunkSize (buffer.take (i + 2))) := by
  have hle : i + 2 ≤ buffer.length := find_le h
  have hline : buffer.take (i + 2) = buffer.take i ++ CRLF := by
    obtain ⟨rest, hrest⟩ := isPrefix_of_find h
    rw [List.take_add, ← hrest]
    rfl
  have hlength : (buffer.take i ++ CRLF).length - 2 = (buffer.take i).length := by
    rw [List.length_append]
    rfl
  have hending : substr (buffer.take i ++ CRLF) (buffer.take i).length 2 = .ok CRLF := by
    rw [substr, if_neg (by rw [List.length_append]; omega), List.drop_left]
    rfl
  have hpos : ((find (ascii ";") (buffer.take i ++ CRLF)).or
      (find CRLF (buffer.take i ++ CRLF))).isSome = true := by
    have hcrlf : find CRLF (buffer.take i ++ CRLF) ≠ none := by
      rw [Ne, find_eq_none, not_not]
      exact (List.suffix_append _ _).isInfix
    rw [Option.isSome_or, Option.isSome_iff_ne_none.mpr hcrlf, Bool.or_true]
  rw [hline, getChunkSize, hlength, hending, ok_bind, assert_pos rfl, ok_bind]
  dsimp only
  rw [assert_pos hpos, ok_bind]
  exact (readInteger_ensures _ _).bind fun _ _ => trivial

namespace Chunks

variable {c : Chunks}

/-- All of a chunk is there, with two more bytes, and these are not CRLF. -/
def Misends (c : Chunks) : Prop :=
  c.state = .chunk ∧ c.parserBuffer ≠ [] ∧ c.needed ≤ c.parserBuffer.length ∧
    ∃ ending, substr c.parserBuffer c.currentChunkSize 2 = .ok ending ∧ ending ≠ CRLF

theorem step_assertion_iff : c.step = .error .assertion ↔ c.Misends := by
  constructor
  · intro h
    rcases step_error h with ⟨-, i, hi, hsize⟩ | ⟨hstate, hne, hle, hcrlf⟩
    · exact absurd rfl ((getChunkSize_ensures hi).of_error hsize)
    · refine ⟨hstate, hne, hle, ?_⟩
      rw [step_chunk hstate, if_pos ⟨hne, hle⟩, endChunk] at h
      cases hending : substr c.parserBuffer c.currentChunkSize 2 with
      | ok ending => exact ⟨ending, rfl, fun heq => hcrlf (heq ▸ hending)⟩
      | error e =>
          rw [hending] at h
          cases of_map_error h
          exact absurd rfl ((substr_ensures _ _ _).of_error hending)
  · rintro ⟨hstate, hne, hle, ending, hending, hcrlf⟩
    rw [step_chunk hstate, if_pos ⟨hne, hle⟩, endChunk, hending, ok_bind, assert_neg hcrlf]
    rfl

end Chunks

namespace ChunkedBodyParser

variable {p : ChunkedBodyParser} {b : Bytes}

theorem read_assertion_iff (h : p.Idle) : p.read b = .error .assertion ↔
    ∃ c, Chunks.loop.Reaches (p.toChunks.append b) c ∧ c.Misends := by
  have hrun : Chunks.loop.run (p.toChunks.append b) = .error .assertion ↔
      ∃ c, Chunks.loop.Reaches (p.toChunks.append b) c ∧ c.Misends := by
    rw [Loop.run_error_iff]
    exact exists_congr fun c => and_congr_right fun _ => Chunks.step_assertion_iff
  rw [← hrun]
  constructor
  · intro hread
    rcases bind_error.mp hread with hrun | ⟨r, hr, hread⟩
    · exact hrun
    · cases r with
      | pending c => cases hread
      | found n =>
          -- the end is behind all that has been acknowledged
          have hgt : p.total < n := Chunks.found_gt h.blocked hr
          rw [h.acked] at hgt
          dsimp only at hread
          rw [assert_pos hgt] at hread
          cases hread
  · intro hrun
    rw [read, hrun]
    rfl

end ChunkedBodyParser

namespace HTTPResponse

variable {m : HTTPResponse} {str : Bytes}

/-- In `str`, the chunked body of the message misends. -/
def Misends (str : Bytes) (m : HTTPResponse) : Prop :=
  ∃ p, m.members.bodyParser = some (.chunked p) ∧
    ∃ c, Chunks.loop.Reaches (p.toChunks.append str) c ∧ c.Misends

/-- There is a body parser, which has taken all that it could. -/
def Bodied (d : ResponseMembers) : Prop :=
  ∃ parser, d.bodyParser = some parser ∧ ∀ p, parser = .chunked p → p.Idle

theorem readInComplexBody_assertion_iff (hstate : m.state = .bodyPending)
    (h : Bodied m.members) :
    m.readInComplexBody str = .error .assertion ↔ m.Misends str := by
  obtain ⟨parser, hparser, hidle⟩ := h
  rw [readInComplexBody_eq hstate hparser, Misends, hparser]
  cases parser with
  | rule5 => exact iff_of_false (fun h => by cases h) fun ⟨p, hp, _⟩ => by cases hp
  | chunked p =>
      have hread : ((BodyParser.chunked p).read str).map (afterRead str m) = .error .assertion ↔
          p.read str = .error .assertion := by
        rw [BodyParser.read]
        cases p.read str with
        | error e => exact ⟨fun h => by cases h; rfl, fun h => by cases h; rfl⟩
        | ok r => cases r <;> exact iff_of_false (fun h => by cases h) fun h => by cases h
      rw [hread, ChunkedBodyParser.read_assertion_iff (hidle p rfl)]
      constructor
      · exact fun hc => ⟨p, rfl, hc⟩
      · rintro ⟨p', hp', hc⟩
        cases hp'
        exact hc

end HTTPResponse

/-! ### The two parsers -/

theorem split_ensures (str separator : Bytes) :
    Ensures IsException (fun _ => True) (split str separator) := by
  unfold split
  split
  · exact trivial
  next first rest _ =>
    refine Ensures.bind (P := fun _ => True) ?_ fun _ _ =>
      (substr_ensures _ _ _).bind fun _ _ => trivial
    cases hinner : ((first :: rest).zip rest).mapM fun i =>
        substr str (i.1 + separator.length) (MachineInt.toU64 (i.2 - i.1 - separator.length)) with
    | error e =>
        obtain ⟨_, -, herror⟩ := of_mapM_error hinner
        exact (substr_ensures _ _ _).of_error herror
    | ok inner => exact trivial

theorem mimeType_ensures (contentType : Bytes) :
    Ensures IsException (fun _ => True) (mimeType contentType) := by
  refine (split_ensures _ _).bind fun types _ => ?_
  cases types with
  | nil => exact fun h => nomatch h
  | cons type types =>
      dsimp only
      split
      · exact fun h => nomatch h
      · exact trivial

namespace HTTPMessage

variable {D : Type} {m : HTTPMessage D}

theorem getHeaderValue_ensures (headerName : Bytes) :
    Ensures IsException (fun _ => True) (m.getHeaderValue headerName) := by
  unfold getHeaderValue
  split
  · exact trivial
  · exact fun h => nomatch h

end HTTPMessage

/-- A request has a body of known size. -/
def HTTPRequestParser.guarded : Guarded RequestMembers RequestParserMembers where
  Source _ := True
  Headed _ := True
  Bodied _ := True
  start _ := ⟨trivial, rfl, rfl, trivial⟩
  calculate {m} hstate hbody _ := by
    have hset : ∀ size, Ensures IsException (fun m' : HTTPRequest => m'.state = .bodyPending ∧
        m'.body = [] ∧ True ∧ (m'.expectedBodySize.1 = false → True))
        (m.setExpectedBodySize true size) := fun size => by
      rw [HTTPMessage.setExpectedBodySize_eq hstate]
      exact ⟨hstate, hbody, trivial, fun _ => trivial⟩
    show Ensures _ _ (HTTPRequest.calculateExpectedBodySize m)
    rw [HTTPRequest.calculateExpectedBodySize, assert_pos hstate, ok_bind]
    split
    · exact hset 0
    · split
      · split
        · exact (HTTPMessage.getHeaderValue_ensures _).bind fun value _ =>
            (readInteger_ensures 10 value).bind fun size _ => hset _
        · exact fun h => nomatch h
      · exact fun h => nomatch h
  read _ _ _ _ := trivial
  eof _ := fun h => nomatch h

namespace HTTPResponse

variable {m : HTTPResponse}

theorem hasNoBody_ensures (hstate : m.state ≠ .firstLinePending)
    (hrequest : m.members.request.state ≠ .firstLinePending) :
    Ensures IsException (fun _ => True) m.hasNoBody := by
  have hcode : Ensures IsException (fun _ => True) m.statusCode := by
    rw [statusCode, assert_pos hstate, ok_bind]
    refine (split_ensures _ _).bind fun tokens _ => ?_
    split
    · exact trivial
    · exact fun h => nomatch h
  refine hcode.bind fun code _ => ?_
  cases code with
  | nil => exact fun h => nomatch h
  | cons c code =>
      dsimp only
      split
      · exact trivial
      · rw [HTTPRequest.isHead, assert_pos hrequest]
        exact trivial

theorem isChunked_ensures : Ensures IsException (fun _ => True) m.isChunked := by
  unfold isChunked
  split
  · exact (HTTPMessage.getHeaderValue_ensures _).bind fun value _ =>
      (split_ensures value _).bind fun _ _ => trivial
  · exact trivial

theorem isMultipart_ensures : Ensures IsException (fun _ => True) m.isMultipart := by
  unfold isMultipart
  split
  · exact (HTTPMessage.getHeaderValue_ensures _).bind fun value _ =>
      (mimeType_ensures value).bind fun _ _ => trivial
  · exact trivial

/-- The size is known, or there is a parser that has read nothing. -/
theorem calculateExpectedBodySize_ensures (hstate : m.state = .bodyPending) (hbody : m.body = [])
    (hrequest : m.members.request.state = .complete) :
    Ensures IsException (fun m' : HTTPResponse => m'.state = .bodyPending ∧ m'.body = [] ∧
        m'.members.request.state = .complete ∧
        (m'.expectedBodySize.1 = false → Bodied m'.members)) m.calculateExpectedBodySize := by
  have hsize : ∀ size, Ensures IsException (fun m' : HTTPResponse => m'.state = .bodyPending ∧
      m'.body = [] ∧ m'.members.request.state = .complete ∧
      (m'.expectedBodySize.1 = false → Bodied m'.members)) (m.setExpectedBodySize true size) := by
    intro size
    rw [HTTPMessage.setExpectedBodySize_eq hstate]
    exact ⟨hstate, hbody, hrequest, fun h => nomatch h⟩
  have hparser : ∀ parser : BodyParser, (∀ p, parser = .chunked p → p.Idle) →
      Ensures IsException (fun m' : HTTPResponse => m'.state = .bodyPending ∧ m'.body = [] ∧
        m'.members.request.state = .complete ∧
        (m'.expectedBodySize.1 = false → Bodied m'.members)) (m.setBodyParser parser) := by
    intro parser hidle
    rw [setBodyParser, HTTPMessage.setExpectedBodySize_eq hstate]
    exact ⟨hstate, hbody, hrequest, fun _ => ⟨parser, rfl, hidle⟩⟩
  rw [calculateExpectedBodySize, assert_pos hstate, ok_bind]
  refine (hasNoBody_ensures (by rw [hstate]; decide) (by rw [hrequest]; decide)).bind fun _ _ => ?_
  split
  · exact hsize 0
  refine isChunked_ensures.bind fun _ _ => ?_
  split
  · exact hparser _ fun p hp => by cases hp; exact ChunkedBodyParser.idle_new _
  split
  · exact (HTTPMessage.getHeaderValue_ensures _).bind fun value _ =>
      (readInteger_ensures 10 value).bind fun _ _ => hsize _
  refine isMultipart_ensures.bind fun _ _ => ?_
  split
  · exact fun h => nomatch h
  · exact hparser _ fun p hp => nomatch hp

/-- What is read belongs to the body, which is complete or goes on. -/
theorem readInComplexBody_ensures {str : Bytes} (hstate : m.state = .bodyPending)
    (h : Bodied m.members) : Ensures (fun _ => True) (fun r => r.1 ≤ str.length ∧
        r.2.members.request = m.members.request ∧ (r.2.state = .complete ∨
          (r.1 = str.length ∧ r.2.state = .bodyPending ∧
            r.2.expectedBodySize = m.expectedBodySize ∧ Bodied r.2.members)))
      (m.readInComplexBody str) := by
  obtain ⟨parser, hparser, hidle⟩ := h
  rw [readInComplexBody_eq hstate hparser]
  cases hread : parser.read str with
  | error e => exact trivial
  | ok r =>
      cases r with
      | done n =>
          exact ⟨BodyParser.read_le hidle hread, rfl, .inl rfl⟩
      | all parser' =>
          refine ⟨Nat.le_refl _, rfl, .inr ⟨rfl, hstate, rfl, parser', rfl, fun p' hp' => ?_⟩⟩
          cases parser with
          | rule5 => cases hread; cases hp'
          | chunked p =>
              obtain ⟨r, hr, hread⟩ := bind_ok.mp hread
              cases r with
              | done n => cases hread
              | all p₁ =>
                  cases hread
                  cases hp'
                  exact ChunkedBodyParser.read_idle (hidle p rfl) hr

end HTTPResponse

/-- A response that has its first line answers a complete request. -/
def HTTPResponseParser.guarded : Guarded ResponseMembers ResponseParserMembers where
  Source p := ∀ request ∈ p.requests, request.state = .complete
  Headed d := d.request.state = .complete
  Bodied := HTTPResponse.Bodied
  start {p} hsource := by
    show Ensures _ _ (HTTPResponseParser.initializeNewMessage p HTTPMessage.new)
    unfold HTTPResponseParser.initializeNewMessage
    split
    · exact fun h => nomatch h
    next request requests heq =>
      obtain ⟨hrequest, hrequests⟩ := List.forall_mem_cons.mp (heq ▸ hsource)
      exact ⟨hrequests, rfl, rfl, hrequest⟩
  calculate := HTTPResponse.calculateExpectedBodySize_ensures
  read _ hstate hheaded hbodied :=
    (HTTPResponse.readInComplexBody_ensures hstate hbodied).mono fun _ hr =>
      ⟨hr.1, hr.2.1 ▸ hheaded, hr.2.2⟩
  eof m := by
    show Ensures _ _ (HTTPResponse.eofInBody m)
    unfold HTTPResponse.eofInBody
    split
    next parser _ => cases parser <;> exact rfl
    · exact fun h => nomatch h

/-! ### A connection -/

/-- When the parser has `buffer` too, it comes to a chunk that is not followed by CRLF. -/
def HTTPResponseParser.Misends (buffer : Bytes) (q : HTTPResponseParser) : Prop :=
  ∃ t, parsing.Reaches (q.append buffer) t ∧ t.messageInProgress.state = .bodyPending ∧
    t.messageInProgress.expectedBodySize.1 = false ∧
      HTTPResponse.Misends t.buffer t.messageInProgress

theorem HTTPResponseParser.fails_iff {q : HTTPResponseParser} (h : Guards guarded q) :
    q.Fails ↔ q.messageInProgress.state = .bodyPending ∧
      q.messageInProgress.expectedBodySize.1 = false ∧
        HTTPResponse.Misends q.buffer q.messageInProgress := by
  refine and_congr_right fun hstate => and_congr_right fun hknown => ?_
  have hsound := h.sound
  rw [Sound, hstate] at hsound
  exact HTTPResponse.readInComplexBody_assertion_iff hstate (hsound.2.2 hknown)

namespace Connection

variable {c : Connection}

structure Guards (c : Connection) : Prop where
  requests : HTTPMessageSequence.Guards HTTPRequestParser.guarded c.requestParser
  requestsWait : c.requestParser.Waits
  responses : HTTPMessageSequence.Guards HTTPResponseParser.guarded c.responseParser
  responsesWait : c.responseParser.Waits

theorem guards_new : Guards {} where
  requests := ⟨trivial, rfl, fun _ hm => (nomatch hm)⟩
  requestsWait := ⟨fun h => (nomatch h), fun h => (nomatch h), fun _ => rfl⟩
  responses := ⟨fun _ hm => (nomatch hm), rfl, fun _ hm => (nomatch hm)⟩
  responsesWait := ⟨fun h => (nomatch h), fun h => (nomatch h), fun _ => rfl⟩

/-- **What an event keeps.** -/
theorem step_ensures (event : ProxyEvent) (h : c.Guards) :
    Ensures (fun e => e = .assertion → ∃ buffer, event = .serverIn buffer ∧ buffer ≠ [] ∧
      c.responseParser.Misends buffer) Guards (step event c) := by
  cases event with
  | serverIn buffer =>
      have hparse := parse_ensures HTTPResponseParser.guarded buffer h.responses h.responsesWait
      refine Ensures.bind (Ensures.mapError (hparse.mono_error fun e he heq => ?_)) fun q hq =>
        ⟨h.requests, h.requestsWait, hq.1, hq.2⟩
      obtain ⟨hbuffer, t, ht, hguards, hfails⟩ := he heq
      exact ⟨buffer, rfl, hbuffer, t, ht, (HTTPResponseParser.fails_iff hguards).mp hfails⟩
  | clientIn buffer =>
      have hparse := parse_ensures HTTPRequestParser.guarded buffer h.requests h.requestsWait
      refine Ensures.bind (Ensures.mapError (hparse.mono_error fun e he heq => ?_)) fun q hq =>
        ⟨hq.1, hq.2, h.responses, h.responsesWait⟩
      -- the body of a request has a known size
      obtain ⟨-, t, -, -, -, -, hread⟩ := he heq
      cases hread
  | serverOut =>
      unfold step
      dsimp only
      split
      · exact h
      next request requests heq =>
        have hcomplete : request.state = .complete :=
          (h.requests.completes request (heq ▸ List.mem_cons_self)).1
        rw [HTTPMessage.str_eq hcomplete]
        refine ⟨⟨trivial, h.requests.sound, fun m hm => ?_⟩, h.requestsWait.of_eq rfl rfl,
          ⟨fun r hr => ?_, h.responses.sound, h.responses.completes⟩, h.responsesWait.of_eq rfl rfl⟩
        · exact h.requests.completes m (List.mem_of_mem_tail hm)
        · rcases List.mem_append.mp hr with hr | hr
          · exact h.responses.source r hr
          · exact List.mem_singleton.mp hr ▸ hcomplete
  | clientOut =>
      unfold step
      dsimp only
      split
      · exact h
      next response responses heq =>
        obtain ⟨hcomplete, hrequest⟩ :=
          h.responses.completes response (heq ▸ List.mem_cons_self)
        rw [HTTPMessage.str_eq hcomplete, HTTPMessage.toprotobuf_eq hcomplete,
          HTTPMessage.toprotobuf_eq (m := response.members.request) hrequest]
        exact ⟨h.requests, h.requestsWait, ⟨h.responses.source, h.responses.sound, fun m hm =>
          h.responses.completes m (List.mem_of_mem_tail hm)⟩, h.responsesWait.of_eq rfl rfl⟩

theorem run_guards {events : List ProxyEvent} (hrun : run step events {} = .ok c) : c.Guards :=
  run_induction (P := fun _ => Guards) guards_new
    (fun _ _ event _ _ hguards hstep => (step_ensures event hguards).of_ok hstep) hrun

end Connection

/-- **When no assertion fails.**  The loops end, and on a connection whose client and server send
anything an assertion fails exactly when a chunk is not followed by CRLF. -/
theorem never_asserts_iff (events : List ProxyEvent) :
    ((∀ q : HTTPRequestParser, parsing.Ends q) ∧ (∀ q : HTTPResponseParser, parsing.Ends q) ∧
      ∀ c, Chunks.loop.Ends c) ∧
    (run Connection.step events {} ≠ .error .assertion ↔
      ∀ before buffer c, buffer ≠ [] → before ++ [.serverIn buffer] <+: events →
        run Connection.step before {} = .ok c → ¬ c.responseParser.Misends buffer) := by
  refine ⟨⟨parsing.ends, parsing.ends, Chunks.loop.ends⟩, ?_, ?_⟩
  · rintro hnever before buffer c hbuffer ⟨after, rfl⟩ hrun ⟨t, ht, hmisends⟩
    refine hnever ?_
    have hguards : Guards HTTPResponseParser.guarded t :=
      reaches_guards _ ((Connection.run_guards hrun).responses.append _ buffer) ht
    have hparse : parse buffer c.responseParser = .error (.assertion, t.completeMessages) :=
      (parse_eq hbuffer).trans
        (run_assertion ht ((HTTPResponseParser.fails_iff hguards).mpr hmisends))
    rw [run_append, run_append, hrun, ok_bind, run_singleton, Connection.step, hparse]
    rfl
  · intro hends hassert
    have hrun : Ensures (fun e => e = .assertion → ∃ before buffer c, buffer ≠ [] ∧
        before ++ [.serverIn buffer] <+: events ∧ run Connection.step before {} = .ok c ∧
          c.responseParser.Misends buffer) Connection.Guards (run Connection.step events {}) := by
      refine ensures_run (P := fun _ => Connection.Guards) Connection.guards_new
        fun done c event hguards hdone hpre =>
          (Connection.step_ensures event hguards).mono_error fun e he heq => ?_
      obtain ⟨buffer, rfl, hbuffer, hmisends⟩ := he heq
      exact ⟨done, buffer, c, hbuffer, hpre, hdone, hmisends⟩
    obtain ⟨before, buffer, c, hbuffer, hpre, hdone, hmisends⟩ := hrun.of_error hassert rfl
    exact hends before buffer c hbuffer hpre hdone hmisends

/-- Two bytes that are not CRLF behind a chunk stop the process. -/
theorem chunk_asserts :
    run Connection.step [.clientIn (ascii "GET / HTTP/1.1\r\n\r\n"), .serverOut,
      .serverIn (responseHead ++ ascii "3\r\nabcdX")] {} = .error .assertion := by
  decide +kernel

end Mahimahi
