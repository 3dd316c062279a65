import Mahimahi.Http.ChunkedPieces
import Mahimahi.Http.Cuts
import Mahimahi.Http.Tokens

/-!
# Http — pipelined responses

A `SentResponse` is a response as a server sends it.  A `FramedResponse` also says where its body ends
(there is none, or it is chunked, or its length is given), and `Framed request` that its headers say
so too.

* `calculateExpectedBodySize_eq`: the rules that the parser follows, one for each framing.
* `pipelined_framing_iff`: the responses to a list of requests are read as they were sent, each with
  its own request, however the stream is cut, when the chunk headers are on one line and have no tab
  behind the size; other responses are not, but by luck.
-/

open Fallible MachineInt

namespace Mahimahi

open Search Ezio Loops HTTPMessageSequence SentBody

/-! ### Responses as they are sent -/

/-- A status line of three parts, of which the last may have spaces. -/
structure StatusLine where
  version : Bytes
  code : Bytes
  reason : Bytes
  version_space : 32 ∉ version
  code_length : code.length = 3
  code_digits : ∀ b ∈ code, isDigit 10 b = true
  isLine : IsLine (version ++ 32 :: (code ++ 32 :: reason))

def StatusLine.text (s : StatusLine) : Bytes := s.version ++ 32 :: (s.code ++ 32 :: s.reason)

structure SentResponse where
  status : StatusLine
  fields : List Field
  body : Bytes

namespace SentResponse

def head (r : SentResponse) : Head :=
  { firstLine := r.status.text, fields := r.fields, isLine := r.status.isLine }

def text (r : SentResponse) : Bytes := r.head.text ++ r.body

end SentResponse

/-- The last coding of a list is `chunked`. -/
def EndsInChunked (value : Bytes) : Prop :=
  ∃ coding, 44 ∉ coding ∧ equivalentStrings coding (ascii "chunked") = true ∧
    (value = coding ∨ ∃ before, value = before ++ 44 :: coding)

/-- An answer that has no body, whatever its headers say. -/
def Bodiless (request : HTTPRequest) (code : Bytes) : Prop :=
  code = ascii "204" ∨ code = ascii "304" ∨ request.firstLine.take 5 = ascii "HEAD "

/-- How the end of a response's body is told. -/
inductive Framing where
  | noBody
  | chunked (b : SentBody)
  | contentLength

structure FramedResponse extends SentResponse where
  framing : Framing

/-- The headers and the body go with the framing. -/
inductive Framed (request : HTTPRequest) (r : FramedResponse) : Prop where
  | noBody (hframing : r.framing = .noBody) (h : Bodiless request r.status.code) (hbody : r.body = [])
  | chunked {value : Bytes} {b : SentBody} (hframing : r.framing = .chunked b)
      (h : ¬ Bodiless request r.status.code)
      (hvalue : headerValue (ascii "Transfer-Encoding") r.head.headers = some value)
      (hchunked : EndsInChunked value)
      (htrailer : headerValue (ascii "Trailer") r.head.headers = none)
      (hfields : b.trailer = []) (hsmall : ∀ k ∈ b.chunks, k.data.length + 2 < 2 ^ 32)
      (hbody : r.body = b.text)
  /-- A `std::string` has fewer than 2 ^ 63 bytes. -/
  | contentLength {value : Bytes} (hframing : r.framing = .contentLength)
      (h : ¬ Bodiless request r.status.code)
      (hnone : headerValue (ascii "Transfer-Encoding") r.head.headers = none)
      (hvalue : headerValue (ascii "Content-Length") r.head.headers = some value)
      (hbody : IsInteger value r.body.length) (hfits : r.body.length < 2 ^ 63)

/-- A final response to a request that has been read. -/
structure Sent (p : HTTPRequest × FramedResponse) : Prop where
  request : p.1.state = .complete
  final : p.2.status.code.head? ≠ some 49
  framed : Framed p.1 p.2

namespace FramedResponse

/-- The headers of all chunks are on one line, with no tab behind the size. -/
def Plain (r : FramedResponse) : Prop :=
  ∀ b, r.framing = .chunked b → (∀ k ∈ b.chunks, k.Plain) ∧ b.last.Plain

/-- The parser takes a folded line of a chunk's header for the chunk's data. -/
def OutOfStep (r : FramedResponse) : Prop := ∃ b, r.framing = .chunked b ∧ b.OutOfStep

end FramedResponse

/-! ### The rules -/

namespace HTTPResponse

variable {m : HTTPResponse}

theorem statusCode_eq {s : StatusLine} (hstate : m.state ≠ .firstLinePending)
    (hline : m.firstLine = s.text) : m.statusCode = .ok s.code := by
  have hcode : 32 ∉ s.code := fun h => absurd (s.code_digits 32 h) (by decide)
  have hindex : ∀ i ∈ (indicesOf (s.code ++ 32 :: s.reason) [32]).head?, i < 2 ^ 64 := by
    rw [indicesOf_word_cons hcode]
    intro i hi
    cases hi
    rw [s.code_length]
    decide
  obtain ⟨x, xs, hsplit⟩ := split_two (t := s.reason) hcode
  have htokens : split m.firstLine (ascii " ") = .ok (s.version :: s.code :: x :: xs) := by
    rw [ascii_space, hline, StatusLine.text, split_word_cons s.version_space hindex, hsplit]
    rfl
  rw [statusCode, assert_pos hstate, ok_bind, htokens]
  rfl

/-- Rule 1. -/
theorem hasNoBody_eq {s : StatusLine} (hstate : m.state ≠ .firstLinePending)
    (hline : m.firstLine = s.text) (hrequest : m.members.request.state ≠ .firstLinePending) :
    ∃ none, m.hasNoBody = .ok none ∧
      (none = true ↔ s.code.head? = some 49 ∨ Bodiless m.members.request s.code) := by
  rw [hasNoBody, statusCode_eq hstate hline, ok_bind, Bodiless]
  cases hcode : s.code with
  | nil =>
      have hlength := s.code_length
      rw [hcode] at hlength
      cases hlength
  | cons c code =>
      dsimp only
      split
      next h =>
        have hhead : (c :: code).head? = some 49 ↔ c = 49 := by simp
        refine ⟨true, rfl, iff_of_true rfl ?_⟩
        rw [hhead]
        exact h.imp_right fun h => h.imp_right .inl
      next h =>
        rw [HTTPRequest.isHead, assert_pos hrequest]
        refine ⟨_, rfl, ?_⟩
        simp only [not_or] at h
        simp [h.1, h.2.1, h.2.2]

/-- Rule 2. -/
theorem isChunked_eq {value : Bytes}
    (hvalue : headerValue (ascii "Transfer-Encoding") m.headers = some value)
    (h : EndsInChunked value) : m.isChunked = .ok true := by
  obtain ⟨coding, hcomma, hchunked, hcoding⟩ := h
  have hascii : ascii "," = [44] := by decide +kernel
  obtain ⟨xs, hsplit⟩ : ∃ xs, split value (ascii ",") = .ok (xs ++ [coding]) := by
    rw [hascii]
    rcases hcoding with rfl | ⟨before, rfl⟩
    · exact ⟨[], split_word hcomma⟩
    · exact split_last before hcomma
  rw [isChunked, HTTPMessage.hasHeader_eq, hvalue, HTTPMessage.getHeaderValue_eq hvalue]
  dsimp only [Option.isSome_some]
  rw [if_pos rfl, ok_bind, hsplit, ok_bind, List.getLast?_concat]
  exact congrArg Except.ok hchunked

theorem isChunked_none (h : headerValue (ascii "Transfer-Encoding") m.headers = none) :
    m.isChunked = .ok false := by
  rw [isChunked, HTTPMessage.hasHeader_eq, h]
  rfl

end HTTPResponse

/-- A response whose headers have been read. -/
def SentResponse.headed (r : SentResponse) (request : HTTPRequest) : HTTPResponse :=
  { firstLine := r.status.text, headers := r.head.headers, state := .bodyPending,
    members := { request } }

/-- A response whose chunked body is read next. -/
def SentResponse.inChunks (r : SentResponse) (request : HTTPRequest) : HTTPResponse :=
  { r.headed request with
    expectedBodySize := (false, 2 ^ 64 - 1)
    members := { request, bodyParser := some (.chunked { trailersEnabled := false }) } }

theorem SentResponse.headed_state (r : SentResponse) (request : HTTPRequest) :
    (r.headed request).state = .bodyPending := rfl

namespace HTTPResponse

variable {r : SentResponse} {request : HTTPRequest}

theorem calculate_noBody (hrequest : request.state = .complete)
    (h : r.status.code.head? = some 49 ∨ Bodiless request r.status.code) :
    (r.headed request).calculateExpectedBodySize =
      .ok { r.headed request with expectedBodySize := (true, 0) } := by
  obtain ⟨none, hnone, hiff⟩ := hasNoBody_eq (m := r.headed request) (s := r.status)
    (by rw [r.headed_state]; decide) rfl
    (by rw [SentResponse.headed, hrequest]; decide)
  rw [calculateExpectedBodySize, assert_pos (r.headed_state request), ok_bind,
    hnone, ok_bind, if_pos (hiff.mpr h)]
  rfl

theorem hasNoBody_headed (hrequest : request.state = .complete)
    (hcode : r.status.code.head? ≠ some 49) (h : ¬ Bodiless request r.status.code) :
    (r.headed request).hasNoBody = .ok false := by
  obtain ⟨none, hnone, hiff⟩ := hasNoBody_eq (m := r.headed request) (s := r.status)
    (by rw [r.headed_state]; decide) rfl
    (by rw [SentResponse.headed, hrequest]; decide)
  cases none with
  | false => exact hnone
  | true => exact absurd (hiff.mp rfl) (not_or.mpr ⟨hcode, h⟩)

theorem calculate_chunked {value : Bytes} (hrequest : request.state = .complete)
    (hcode : r.status.code.head? ≠ some 49) (h : ¬ Bodiless request r.status.code)
    (hvalue : headerValue (ascii "Transfer-Encoding") r.head.headers = some value)
    (hchunked : EndsInChunked value)
    (htrailer : headerValue (ascii "Trailer") r.head.headers = none) :
    (r.headed request).calculateExpectedBodySize = .ok (r.inChunks request) := by
  rw [calculateExpectedBodySize, assert_pos (r.headed_state request), ok_bind,
    hasNoBody_headed hrequest hcode h, ok_bind, if_neg (by decide), isChunked_eq hvalue hchunked,
    ok_bind, if_pos rfl, HTTPMessage.hasHeader_eq,
    show headerValue (ascii "Trailer") (r.headed request).headers = _ from htrailer]
  rfl

theorem calculate_contentLength {value : Bytes} (hrequest : request.state = .complete)
    (hcode : r.status.code.head? ≠ some 49) (h : ¬ Bodiless request r.status.code)
    (hnone : headerValue (ascii "Transfer-Encoding") r.head.headers = none)
    (hvalue : headerValue (ascii "Content-Length") r.head.headers = some value)
    {n : Nat} (hsize : IsInteger value n) (hfits : n < 2 ^ 63) :
    (r.headed request).calculateExpectedBodySize =
      .ok { r.headed request with expectedBodySize := (true, n) } := by
  have hread : readInteger 10 value = .ok (n : Int) := by
    rw [readInteger, myatoi_ok_iff.mpr ⟨hsize, by omega, by omega⟩]
  have hvalue' : headerValue (ascii "Content-Length") (r.headed request).headers = some value :=
    hvalue
  rw [calculateExpectedBodySize, assert_pos (r.headed_state request), ok_bind,
    hasNoBody_headed hrequest hcode h, ok_bind, if_neg (by decide),
    isChunked_none (m := r.headed request) hnone, ok_bind, if_neg (by decide),
    HTTPMessage.hasHeader_eq, HTTPMessage.hasHeader_eq, hvalue',
    show headerValue (ascii "Transfer-Encoding") (r.headed request).headers = none from hnone,
    if_pos (show (!(none : Option Bytes).isSome && (some value).isSome) = true from rfl),
    HTTPMessage.getHeaderValue_eq hvalue', ok_bind, hread, ok_bind, toU64_natCast (by omega)]
  rfl

end HTTPResponse

/-! ### A response is read as it was sent -/

/-- What a message that was read is compared by. -/
structure Exchange where
  request : HTTPRequest
  firstLine : Bytes
  headers : List HTTPHeader
  body : Bytes
  deriving DecidableEq, Repr

def HTTPResponse.exchange (m : HTTPResponse) : Exchange :=
  ⟨m.members.request, m.firstLine, m.headers, m.body⟩

def SentResponse.exchange (r : SentResponse) (request : HTTPRequest) : Exchange :=
  ⟨request, r.status.text, r.head.headers, r.body⟩

namespace HTTPResponseParser

variable {q : HTTPResponseParser} {r : SentResponse} {request : HTTPRequest}
  {requests : List HTTPRequest} {rest : Bytes}

/-- The parser between two messages. -/
def resting (requests : List HTTPRequest) (completeMessages : List HTTPResponse) :
    HTTPResponseParser :=
  { messageInProgress := HTTPMessage.new, members := { requests }, completeMessages }

theorem atRest_resting {completeMessages : List HTTPResponse} :
    (resting requests completeMessages).AtRest := ⟨rfl, rfl⟩

/-- The head of a response takes the next request. -/
theorem leads_headed (requests : List HTTPRequest) (cs : List HTTPResponse) (rest : Bytes)
    {m : HTTPResponse}
    (hdone : (r.headed request).calculateExpectedBodySize = .ok m) :
    Leads cuttable ((resting (request :: requests) cs).append (r.head.text ++ rest))
      { (resting requests cs) with buffer := rest, messageInProgress := m } := by
  refine leads_head r.head (m :=
    { firstLine := r.status.text, state := .headersPending, members := { request } })
    rfl rfl rfl rfl ?_
  rw [HTTPMessage.doneWithHeaders, assert_pos rfl, ok_bind]
  exact hdone

/-- A body of known size ends the response. -/
theorem leads_sized (requests : List HTTPRequest) (cs : List HTTPResponse) (rest : Bytes)
    (hdone : (r.headed request).calculateExpectedBodySize =
      .ok { r.headed request with expectedBodySize := (true, r.body.length) }) :
    ∃ m : HTTPResponse, m.exchange = r.exchange request ∧ m.state = .complete ∧
      Leads cuttable ((resting (request :: requests) cs).append (r.text ++ rest))
        ((resting requests (cs ++ [m])).append rest) := by
  refine ⟨{ r.headed request with
    expectedBodySize := (true, r.body.length), body := r.body, state := .complete }, rfl, rfl, ?_⟩
  have hhead := leads_headed requests cs (r.body ++ rest) hdone
  rw [← List.append_assoc] at hhead
  exact hhead.trans ((leads_known rfl rfl rfl rfl).trans (leads_complete rfl))

/-- What is found of a chunked body is the response's body. -/
theorem parsingStep_chunked {x : Bytes} (hstate : q.messageInProgress.state = .bodyPending)
    (hknown : q.messageInProgress.expectedBodySize.1 = false)
    (hparser : q.messageInProgress.members.bodyParser = some (.chunked { trailersEnabled := false }))
    (hempty : q.messageInProgress.body = []) (hbuffer : q.buffer = x ++ rest)
    (hread : ({ trailersEnabled := false } : ChunkedBodyParser).read (x ++ rest) =
      .ok (.done x.length)) :
    parsingStep q = .ok (.more { q with
      buffer := rest
      messageInProgress := { q.messageInProgress with
        body := x
        state := .complete
        members := { q.messageInProgress.members with bodyParser := none } } }) := by
  have hparsed : q.messageInProgress.readInBody q.buffer =
      .ok (x.length, { q.messageInProgress with
        body := x
        state := .complete
        members := { q.messageInProgress.members with bodyParser := none } }) := by
    rw [HTTPMessage.readInBody_unknown hstate hknown]
    refine (HTTPResponse.readInComplexBody_eq hstate hparser).trans ?_
    rw [BodyParser.read, hbuffer, hread, ok_bind]
    show Except.ok (HTTPResponse.afterRead _ _ (.done x.length)) = _
    rw [HTTPResponse.afterRead, hempty, List.take_left, List.nil_append]
  have hle : x.length ≤ q.buffer.length := by
    rw [hbuffer, List.length_append]
    omega
  rw [parsingStep_body hstate, hparsed, ok_bind, assert_pos (.inr rfl), ok_bind, assert_pos hle,
    ok_bind, if_pos rfl, afterBody, hbuffer, List.drop_left]
  rfl

/-- A chunked body that is simple is read as it was sent. -/
theorem leads_chunkedBody {b : SentBody} (hfields : b.trailer = []) (hsimple : b.Simple false)
    (hstate : q.messageInProgress.state = .bodyPending)
    (hknown : q.messageInProgress.expectedBodySize.1 = false)
    (hparser : q.messageInProgress.members.bodyParser = some (.chunked { trailersEnabled := false }))
    (hempty : q.messageInProgress.body = []) (hbuffer : q.buffer = b.text ++ rest) :
    Leads cuttable q { q with
      buffer := rest
      messageInProgress := { q.messageInProgress with
        body := b.text
        state := .complete
        members := { q.messageInProgress.members with bodyParser := none } } } := by
  obtain ⟨hread, hsafe⟩ := SentBody.read_simple (fun _ => hfields) hsimple rest
  refine .step (parsingStep_chunked hstate hknown hparser hempty hbuffer hread) ?_
  rintro - - parser hparser' p rfl
  cases hparser.symm.trans hparser'
  rw [hbuffer]
  exact hsafe

/-- So a chunked body ends the response. -/
theorem leads_chunked (requests : List HTTPRequest) (cs : List HTTPResponse) (rest : Bytes)
    {b : SentBody} (hfields : b.trailer = []) (hsimple : b.Simple false) (hbody : r.body = b.text)
    (hdone : (r.headed request).calculateExpectedBodySize = .ok (r.inChunks request)) :
    ∃ m : HTTPResponse, m.exchange = r.exchange request ∧ m.state = .complete ∧
      Leads cuttable ((resting (request :: requests) cs).append (r.text ++ rest))
        ((resting requests (cs ++ [m])).append rest) := by
  refine ⟨{ r.headed request with
    expectedBodySize := (false, 2 ^ 64 - 1), body := b.text, state := .complete }, ?_, rfl, ?_⟩
  · rw [SentResponse.exchange, hbody]
    rfl
  have hhead := leads_headed requests cs (b.text ++ rest) hdone
  rw [← List.append_assoc] at hhead
  rw [SentResponse.text, hbody]
  exact hhead.trans ((leads_chunkedBody hfields hsimple rfl rfl rfl rfl rfl).trans
    (leads_complete rfl))

/-- **A plain response is read as it was sent**, with the request it answers. -/
theorem leads_response {r : FramedResponse} (requests : List HTTPRequest) (cs : List HTTPResponse)
    (rest : Bytes) (h : Sent (request, r)) (hplain : r.Plain) :
    ∃ m : HTTPResponse, m.exchange = r.exchange request ∧ m.state = .complete ∧
      Leads cuttable ((resting (request :: requests) cs).append (r.text ++ rest))
        ((resting requests (cs ++ [m])).append rest) := by
  obtain ⟨hrequest, hcode, hframed⟩ := h
  cases hframed with
  | noBody _ h hbody =>
      refine leads_sized requests cs rest ?_
      rw [HTTPResponse.calculate_noBody hrequest (.inr h), hbody]
      rfl
  | chunked hframing h hvalue hchunked htrailer hfields hsmall hbody =>
      obtain ⟨hchunks, hlast⟩ := hplain _ hframing
      have hsimple : SentBody.Simple false _ :=
        { good := fun k hk => ⟨hchunks k hk, hsmall k hk⟩, no_tab := hlast.no_tab,
          unfolded := fun _ => hlast.unfolded, trailer := fun hon => by cases hon }
      exact leads_chunked requests cs rest hfields hsimple hbody
        (HTTPResponse.calculate_chunked hrequest hcode h hvalue hchunked htrailer)
  | contentLength _ h hnone hvalue hbody hfits =>
      exact leads_sized requests cs rest
        (HTTPResponse.calculate_contentLength hrequest hcode h hnone hvalue hbody hfits)

/-- Plain responses are read one after another. -/
theorem leads_responses (requests : List HTTPRequest) (rest : Bytes)
    (pairs : List (HTTPRequest × FramedResponse)) (h : ∀ p ∈ pairs, Sent p ∧ p.2.Plain) :
    ∀ cs : List HTTPResponse, ∃ ms : List HTTPResponse,
      ms.map HTTPResponse.exchange = pairs.map (fun p => p.2.exchange p.1) ∧
      (∀ m ∈ ms, m.state = .complete) ∧
      Leads cuttable
        ((resting (pairs.map Prod.fst ++ requests) cs).append
          (pairs.flatMap (fun p => p.2.text) ++ rest))
        ((resting requests (cs ++ ms)).append rest) := by
  induction pairs with
  | nil =>
      intro cs
      refine ⟨[], rfl, List.forall_mem_nil _, ?_⟩
      rw [List.append_nil]
      exact .refl _
  | cons p pairs ih =>
      intro cs
      obtain ⟨⟨hsent, hplain⟩, hpairs⟩ := List.forall_mem_cons.mp h
      obtain ⟨m, hexchange, hcomplete, hleads⟩ := leads_response (pairs.map Prod.fst ++ requests) cs
        (pairs.flatMap (fun p => p.2.text) ++ rest) hsent hplain
      obtain ⟨ms, hexchanges, hall, hrest⟩ := ih hpairs (cs ++ [m])
      refine ⟨m :: ms, ?_, List.forall_mem_cons.mpr ⟨hcomplete, hall⟩, ?_⟩
      · rw [List.map_cons, List.map_cons, hexchange, hexchanges]
      · rw [List.append_assoc, List.singleton_append] at hrest
        rw [List.flatMap_cons, List.append_assoc]
        exact hleads.trans hrest

end HTTPResponseParser

/-! ### Responses that are not -/

/-- The responses are complete as they were sent, each with its own request, and nothing is left
over. -/
def ReadAsSent (pairs : List (HTTPRequest × FramedResponse)) (pieces : List Bytes) : Prop :=
  ∃ ms : List HTTPResponse,
    run parse pieces (HTTPResponseParser.expecting (pairs.map Prod.fst)) =
      .ok (HTTPResponseParser.resting [] ms) ∧
    ms.map HTTPResponse.exchange = pairs.map (fun p => p.2.exchange p.1) ∧
    ∀ m ∈ ms, m.state = .complete

namespace HTTPResponseParser

variable {pairs : List (HTTPRequest × FramedResponse)} {pieces : List Bytes}

/-- What is read of a stream in pieces is read of it at once. -/
theorem resume_of_run (hcut : Cut (pairs.flatMap fun p => p.2.text) pieces) {t : HTTPResponseParser}
    (h : run parse pieces (expecting (pairs.map Prod.fst)) = .ok t) :
    resume (pairs.flatMap fun p => p.2.text) (resting (pairs.map Prod.fst) []) = .ok t := by
  rw [expecting_eq] at h
  rw [← hcut.1]
  exact resume_flatten cuttable hcut.2 (fun _ => cuttable.initial) resume_nil h

/-- **A body that is not plain** is refused, or its end is found too early, unless the parser gets
out of step with it. -/
theorem misread {b : SentBody} (hsmall : ∀ k ∈ b.chunks, k.data.length + 2 < 2 ^ 32)
    (hstep : ¬ b.OutOfStep) (hbad : ¬ ((∀ k ∈ b.chunks, k.Plain) ∧ b.last.Plain)) (rest : Bytes) :
    (∃ e, ({ trailersEnabled := false } : ChunkedBodyParser).read (b.text ++ rest) = .error e) ∨
      ∃ x y, b.text = x ++ y ∧ y ≠ [] ∧
        ({ trailersEnabled := false } : ChunkedBodyParser).read (x ++ (y ++ rest)) =
          .ok (.done x.length) := by
  by_cases hgood : ∀ k ∈ b.chunks, k.Good
  · by_cases htab : b.last.extension.head? = some 9
    · refine .inl ?_
      rw [SentBody.text_eq]
      simp only [List.append_assoc]
      exact (read_tabbed hgood htab false _).1
    · have hfolds : b.last.folds ≠ [] := fun hnone =>
        hbad ⟨fun k hk => (hgood k hk).1, hnone, htab⟩
      obtain ⟨x, y, htext, -, hy, hread⟩ := read_foldedLast hgood htab hfolds
      exact .inr ⟨x, y, htext, hy, (hread _).1⟩
  · obtain ⟨before, k, after, hchunks, hbefore, hk⟩ := exists_first_not hgood
    have hksmall := hsmall k (hchunks ▸ List.mem_append_right before List.mem_cons_self)
    by_cases htab : k.extension.head? = some 9
    · refine .inl ?_
      rw [SentBody.text_eq, hchunks, List.flatMap_append, List.flatMap_cons, SentChunk.text,
        ChunkHeader.text]
      simp only [List.append_assoc]
      exact (read_tabbed hbefore htab false _).1
    · refine absurd ⟨before, k, after, hchunks, hbefore, htab, .inl fun hnone => ?_⟩ hstep
      exact hk ⟨⟨hnone, htab⟩, hksmall⟩

/-- After the responses in front of a chunked one, and its head. -/
theorem reaches_inChunks {before : List (HTTPRequest × FramedResponse)} {request : HTTPRequest}
    {r : FramedResponse} (hbefore : ∀ p ∈ before, Sent p ∧ p.2.Plain)
    (hdone : (r.headed request).calculateExpectedBodySize = .ok (r.inChunks request))
    (requests : List HTTPRequest) (rest : Bytes) :
    ∃ ms : List HTTPResponse, ms.length = before.length ∧
      parsing.Reaches
        ((resting (before.map Prod.fst ++ request :: requests) []).append
          (before.flatMap (fun p => p.2.text) ++ (r.head.text ++ rest)))
        { (resting requests ms) with buffer := rest, messageInProgress := r.inChunks request } := by
  obtain ⟨ms, hexchanges, -, hleads⟩ := leads_responses (request :: requests)
    (r.head.text ++ rest) before hbefore []
  refine ⟨ms, ?_, hleads.reaches.trans (leads_headed requests ms rest hdone).reaches⟩
  rw [← List.length_map HTTPResponse.exchange, hexchanges, List.length_map]

/-- **A body that is refused** stops the parser. -/
theorem not_resumed_of_error {t u : HTTPResponseParser} (hreach : parsing.Reaches q u)
    (hstate : u.messageInProgress.state = .bodyPending)
    (hknown : u.messageInProgress.expectedBodySize.1 = false)
    (hparser : u.messageInProgress.members.bodyParser = some (.chunked { trailersEnabled := false }))
    {e : HTTPError}
    (hread : ({ trailersEnabled := false } : ChunkedBodyParser).read u.buffer = .error e) :
    parsing.run q ≠ .ok t := by
  have hrefused : parsingStep u = .error e := by
    rw [parsingStep_body hstate, HTTPMessage.readInBody_unknown hstate hknown,
      show MessageType.readInComplexBody u.buffer u.messageInProgress = _ from
        HTTPResponse.readInComplexBody_eq hstate hparser, BodyParser.read, hread]
    rfl
  rw [hreach.run_eq, Loop.run_error (by rw [parsing_step, hrefused]; rfl)]
  exact fun h => by cases h

/-- What is found of a body is a complete message's body. -/
theorem completed_of_done {u : HTTPResponseParser} {x : Bytes} (hreach : parsing.Reaches q u)
    (hstate : u.messageInProgress.state = .bodyPending)
    (hknown : u.messageInProgress.expectedBodySize.1 = false)
    (hparser : u.messageInProgress.members.bodyParser = some (.chunked { trailersEnabled := false }))
    (hempty : u.messageInProgress.body = []) (hbuffer : u.buffer = x ++ rest)
    (hread : ({ trailersEnabled := false } : ChunkedBodyParser).read (x ++ rest) =
      .ok (.done x.length)) :
    ∃ m : HTTPResponse, m.body = x ∧ u.completeMessages ++ [m] <+: completed (parsing.run q) := by
  refine ⟨{ u.messageInProgress with
    body := x, state := .complete,
    members := { u.messageInProgress.members with bodyParser := none } }, rfl, ?_⟩
  rw [hreach.run_eq, Loop.run_more (parsing_step_ok.mpr
    (parsingStep_chunked hstate hknown hparser hempty hbuffer hread))]
  exact run_completed_of_complete (q := { u with
    buffer := rest
    messageInProgress := { u.messageInProgress with
      body := x
      state := .complete
      members := { u.messageInProgress.members with bodyParser := none } } }) rfl

/-- **Nothing else is read as it was sent**, unless the parser gets out of step. -/
theorem plain_of_readAsSent (hpairs : ∀ p ∈ pairs, Sent p)
    (hcut : Cut (pairs.flatMap fun p => p.2.text) pieces) (hread : ReadAsSent pairs pieces)
    (hstep : ∀ p ∈ pairs, ¬ p.2.OutOfStep) : ∀ p ∈ pairs, p.2.Plain := by
  by_contra hbad
  obtain ⟨before, ⟨request, r⟩, after, rfl, hbefore, hr⟩ := exists_first_not hbad
  have hmem : (request, r) ∈ before ++ (request, r) :: after :=
    List.mem_append_right before List.mem_cons_self
  obtain ⟨b, hframing, hb⟩ : ∃ b, r.framing = .chunked b ∧
      ¬ ((∀ k ∈ b.chunks, k.Plain) ∧ b.last.Plain) := by
    simp only [FramedResponse.Plain] at hr
    push Not at hr
    obtain ⟨b, hframing, hb⟩ := hr
    exact ⟨b, hframing, fun hplain => hb hplain.1 hplain.2⟩
  obtain ⟨hrequest, hcode, hframed⟩ := hpairs _ hmem
  cases hframed with
  | noBody hframing' => cases hframing.symm.trans hframing'
  | contentLength hframing' => cases hframing.symm.trans hframing'
  | chunked hframing' h hvalue hchunked htrailer hfields hsmall hbody =>
      cases hframing.symm.trans hframing'
      obtain ⟨final, hrun, hexchanges, -⟩ := hread
      have hresume := resume_of_run hcut hrun
      obtain ⟨rest, hrest⟩ : ∃ rest, after.flatMap (fun p => p.2.text) = rest := ⟨_, rfl⟩
      have hstream : (before ++ (request, r) :: after).flatMap (fun p => p.2.text) =
          before.flatMap (fun p => p.2.text) ++ (r.head.text ++ (b.text ++ rest)) := by
        rw [List.flatMap_append, List.flatMap_cons, hrest]
        dsimp only
        rw [SentResponse.text, hbody, List.append_assoc]
      obtain ⟨ms, hlength, hreach⟩ := reaches_inChunks
        (fun p hp => ⟨hpairs p (List.mem_append_left _ hp), hbefore p hp⟩)
        (HTTPResponse.calculate_chunked hrequest hcode h hvalue hchunked htrailer)
        (after.map Prod.fst) (b.text ++ rest)
      rw [hstream, List.map_append, List.map_cons, resume] at hresume
      rcases misread hsmall (fun hout => hstep _ hmem ⟨b, hframing, hout⟩) hb rest with
        ⟨e, he⟩ | ⟨x, y, htext, hy, hx⟩
      · exact not_resumed_of_error hreach rfl rfl rfl he hresume
      · -- the response is complete with a part of its body
        obtain ⟨m, hm, hcomplete⟩ := completed_of_done hreach rfl rfl rfl rfl
          (by rw [htext, List.append_assoc]) hx
        have hfinal : (ms ++ [m]).map HTTPResponse.exchange <+: final.map HTTPResponse.exchange := by
          refine List.IsPrefix.map HTTPResponse.exchange ?_
          rwa [show parsing.run _ = _ from hresume] at hcomplete
        obtain ⟨others, hothers⟩ := hfinal
        rw [hexchanges, List.map_append, List.map_append, List.append_assoc, List.map_cons,
          List.map_cons] at hothers
        have hsame := (List.append_inj hothers (by simp [hlength])).2
        have hexchange : m.exchange = r.exchange request := (List.cons_eq_cons.mp hsame).1
        have hx : x = b.text := by
          rw [← hm, ← hbody]
          exact congrArg Exchange.body hexchange
        have hlong : x.length = (x ++ y).length := congrArg List.length (hx.trans htext)
        have hpos := List.length_pos_iff.mpr hy
        rw [List.length_append] at hlong
        omega

end HTTPResponseParser

/-- **When pipelined responses are read as they were sent**, however the stream is cut: when all
chunk headers are plain, and otherwise only where the parser gets out of step. -/
theorem pipelined_framing_iff {pairs : List (HTTPRequest × FramedResponse)}
    (hpairs : ∀ p ∈ pairs, Sent p) {pieces : List Bytes}
    (hcut : Cut (pairs.flatMap fun p => p.2.text) pieces) :
    ((∀ p ∈ pairs, p.2.Plain) → ReadAsSent pairs pieces) ∧
      (ReadAsSent pairs pieces → (∀ p ∈ pairs, p.2.Plain) ∨ ∃ p ∈ pairs, p.2.OutOfStep) := by
  constructor
  · intro hplain
    obtain ⟨ms, hexchanges, hall, hleads⟩ := HTTPResponseParser.leads_responses [] [] pairs
      (fun p hp => ⟨hpairs p hp, hplain p hp⟩) []
    rw [List.append_nil, List.append_nil] at hleads
    refine ⟨ms, ?_, hexchanges, hall⟩
    rw [HTTPResponseParser.expecting_eq]
    exact hleads.run_pieces (q := HTTPResponseParser.resting (pairs.map Prod.fst) [])
      HTTPResponseParser.atRest_resting HTTPResponseParser.atRest_resting hcut
  · intro hread
    by_cases hstep : ∃ p ∈ pairs, p.2.OutOfStep
    · exact .inr hstep
    · push Not at hstep
      exact .inl (HTTPResponseParser.plain_of_readAsSent hpairs hcut hread hstep)

/-! ### Responses to look at -/

theorem version_no_space : 32 ∉ ascii "HTTP/1.1" := by decide +kernel

def okStatus : StatusLine where
  version := ascii "HTTP/1.1"
  code := ascii "200"
  reason := ascii "OK"
  version_space := version_no_space
  code_length := by decide +kernel
  code_digits := by decide +kernel
  isLine := by decide +kernel

def chunkedResponse (b : SentBody) : FramedResponse where
  status := okStatus
  fields := [{
    name := ascii "Transfer-Encoding"
    text := ascii " gzip,chunked"
    name_colon := by decide +kernel
    isLine := by decide +kernel }]
  body := b.text
  framing := .chunked b

def sizedResponse : FramedResponse where
  status := okStatus
  fields := [{
    name := ascii "Content-Length"
    text := ascii " 3"
    name_colon := by decide +kernel
    isLine := by decide +kernel }]
  body := ascii "abc"
  framing := .contentLength

theorem sent_chunkedResponse {b : SentBody} (hfields : b.trailer = [])
    (hsmall : ∀ k ∈ b.chunks, k.data.length + 2 < 2 ^ 32) : Sent (getRequest, chunkedResponse b) where
  request := rfl
  final := show okStatus.code.head? ≠ some 49 by decide +kernel
  framed := .chunked rfl (show ¬ Bodiless getRequest okStatus.code by unfold Bodiless; decide +kernel)
    (show headerValue (ascii "Transfer-Encoding") (chunkedResponse emptyBody).head.headers =
      some (ascii "gzip,chunked") by decide +kernel)
    ⟨ascii "chunked", by decide +kernel, by decide +kernel, .inr ⟨ascii "gzip", by decide +kernel⟩⟩
    (show headerValue (ascii "Trailer") (chunkedResponse emptyBody).head.headers = none by
      decide +kernel)
    hfields hsmall rfl

theorem sent_sizedResponse : Sent (getRequest, sizedResponse) where
  request := rfl
  final := by decide +kernel
  framed := .contentLength rfl (by unfold Bodiless; decide +kernel) (by decide +kernel)
    (show headerValue (ascii "Content-Length") sizedResponse.head.headers = some (ascii "3") by
      decide +kernel)
    ⟨⟨[], false, false, ascii "3", by decide +kernel, by decide +kernel, by decide +kernel⟩,
      by decide +kernel, by decide +kernel⟩
    (by decide +kernel)

/-- Both, in one piece. -/
theorem pipelined_framing_two :
    ReadAsSent [(getRequest, chunkedResponse helloBody), (getRequest, sizedResponse)]
      [(chunkedResponse helloBody).text ++ sizedResponse.text] := by
  refine (pipelined_framing_iff (fun p hp => ?_) ⟨by simp, by decide +kernel⟩).1 fun p hp => ?_
  · rcases List.mem_pair.mp hp with rfl | rfl
    · exact sent_chunkedResponse rfl (by decide +kernel)
    · exact sent_sizedResponse
  · rcases List.mem_pair.mp hp with rfl | rfl
    · rintro b hb
      cases hb
      exact ⟨List.forall_mem_singleton.mpr ⟨rfl, by decide +kernel⟩, rfl, by decide⟩
    · rintro b hb
      cases hb

-- A parser that is out of step can still come right.
example : ({ trailersEnabled := false } : ChunkedBodyParser).read luckyBody.text =
    .ok (.done luckyBody.text.length) := by decide +kernel

/-- A tab behind a size makes the parser throw, and a folded line fails an assertion. -/
theorem header_refused :
    Sent (getRequest, chunkedResponse tabbedBody) ∧
    tabbedBody.text = ascii "3\t;a=b\r\nabc\r\n0\r\n\r\n" ∧
    run parse [(chunkedResponse tabbedBody).text] (HTTPResponseParser.expecting [getRequest]) =
      .error (.invalidInteger .invalid, []) ∧
    ¬ ReadAsSent [(getRequest, chunkedResponse tabbedBody)] [(chunkedResponse tabbedBody).text] ∧
    Sent (getRequest, chunkedResponse foldedBody) ∧
    foldedBody.text = ascii "3;a=b\r\n ;c=d\r\nabc\r\n0\r\n\r\n" ∧
    run parse [(chunkedResponse foldedBody).text] (HTTPResponseParser.expecting [getRequest]) =
      .error (.assertion, []) ∧
    ¬ ReadAsSent [(getRequest, chunkedResponse foldedBody)]
        [(chunkedResponse foldedBody).text] := by
  have htab : run parse [(chunkedResponse tabbedBody).text]
      (HTTPResponseParser.expecting [getRequest]) = .error (.invalidInteger .invalid, []) := by
    decide +kernel
  have hfold : run parse [(chunkedResponse foldedBody).text]
      (HTTPResponseParser.expecting [getRequest]) = .error (.assertion, []) := by
    decide +kernel
  refine ⟨sent_chunkedResponse rfl (by decide +kernel), by decide +kernel, htab, ?_,
    sent_chunkedResponse rfl (by decide +kernel), by decide +kernel, hfold, ?_⟩
  · rintro ⟨ms, hread, -⟩
    cases htab.symm.trans hread
  · rintro ⟨ms, hread, -⟩
    cases hfold.symm.trans hread

end Mahimahi
