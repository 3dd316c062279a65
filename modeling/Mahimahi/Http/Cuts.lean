import Mahimahi.Http.Bodies

/-!
# Http — any two cuts

* `segmentation_independent`: what the parsers read does not depend on how the stream is cut, where
  a response's chunked body is read without a chunk whose size wraps (`WrapFree`).
* `wrapFree_of_short`: a stream shorter than 4 GiB has no such chunk.
* `short_pieces_agree`: a stream of any length may be cut into any pieces that are shorter.
* `wrap_differs`: a stream that has one, and two cuts of it after which different messages are
  complete.
-/

open Fallible MachineInt

namespace Mahimahi

open Search Loops HTTPMessageSequence

namespace HTTPResponseParser

/-- Every chunked body that the parser comes to is read without a chunk whose size wraps. -/
def WrapFree (q : HTTPResponseParser) : Prop :=
  ∀ t, parsing.Reaches q t → t.messageInProgress.state = .bodyPending →
    t.messageInProgress.expectedBodySize.1 = false →
      ∀ parser, t.messageInProgress.members.bodyParser = some parser →
        parser.ReadsSafely t.buffer

theorem expecting_eq (requests : List HTTPRequest) :
    expecting requests = { new with members := { requests } } := by
  suffices h : ∀ q : HTTPResponseParser, requests.foldl (fun q r => q.newRequestArrived r) q =
      { q with members := { requests := q.members.requests ++ requests } } from h new
  induction requests with
  | nil =>
      intro q
      rw [List.append_nil]
      rfl
  | cons request requests ih =>
      intro q
      rw [List.foldl_cons, ih, newRequestArrived, List.append_assoc]
      rfl

/-! ### Short streams -/

variable {q : HTTPResponseParser}

/-- **A stream shorter than 4 GiB is free of wraps.** -/
theorem wrapFree_of_short {requests : List HTTPRequest} {s : Bytes} (h : s.length < 2 ^ 32) :
    WrapFree (.append (HTTPResponseParser.expecting requests) s) := by
  rw [expecting_eq]
  intro t ht hstate _ parser hparser p hp c hc hwrap
  -- a chunked parser that a step comes to has not read yet
  let fresh := kept (fun p => p.parserBuffer = []) fun _ => rfl
  have hgood : t.Good fresh := reaches_good fresh (fun _ => fresh.initial) ht
  have hfresh : p.parserBuffer = [] := hgood (by rw [hstate]; decide) p (hp ▸ hparser)
  have hlength : t.buffer.length ≤ s.length := reaches_length ht
  have htotal := Chunks.reaches_total hc
  have hparsed := Chunks.reaches_parsed_le hc
  have hpasses := Chunks.wrapPasses_length hwrap
  rw [Chunks.total_append, Chunks.total, Chunks.total, hfresh, List.length_nil] at htotal
  rw [Chunks.append_parsed] at hparsed
  omega

/-- A piece shorter than 4 GiB does not get past a size that wraps. -/
theorem safeFrom_of_short {x : Bytes} (hx : x.length < 2 ^ 32) (hgood : q.Good cuttable.toKept)
    (hwaits : q.Waits) : SafeFrom cuttable (q.append x) := by
  intro t ht hstate _ parser hparser p hp c hc
  have hidle : p.Idle :=
    reaches_good cuttable.toKept (q := q.append x) hgood ht (by rw [hstate]; decide) p
      (hp ▸ hparser)
  exact Chunks.not_wrapPasses_of_short hidle.blocked hidle.sized
    ((hwaits.reaches_body ht hstate).trans_lt hx) hc

/-- **Short pieces.**  Any two cuts of a stream into pieces shorter than 4 GiB leave the same parser
or fail after the same complete messages, whatever the stream.  `HTTPProxy::loop` feeds no other
pieces. -/
theorem short_pieces_agree (requests : List HTTPRequest) {s : Bytes} {xs ys : List Bytes}
    (hxs : Cut s xs) (hys : Cut s ys) (hshort : ∀ x ∈ xs ++ ys, x.length < 2 ^ 32) :
    Agree (run parse xs (expecting requests)) (run parse ys (expecting requests)) := by
  rw [expecting_eq]
  exact piecewise_cuts_agree cuttable (fun _ => cuttable.initial) resume_nil waits_new
    (fun x hx _ hgood hwaits => safeFrom_of_short (hshort x hx) hgood hwaits) hxs hys

end HTTPResponseParser

/-- **Segmentation independence.**  The loops end, and any two cuts of a stream leave the same
parser or fail after the same complete messages. -/
theorem segmentation_independent (requests : List HTTPRequest) {s : Bytes} {xs ys : List Bytes}
    (hxs : Cut s xs) (hys : Cut s ys) :
    ((∀ q : HTTPRequestParser, parsing.Ends q) ∧ (∀ q : HTTPResponseParser, parsing.Ends q) ∧
      ∀ c, Chunks.loop.Ends c) ∧
    Agree (run parse xs HTTPRequestParser.new) (run parse ys HTTPRequestParser.new) ∧
    (HTTPResponseParser.WrapFree (.append (HTTPResponseParser.expecting requests) s) →
      Agree (run parse xs (HTTPResponseParser.expecting requests))
        (run parse ys (HTTPResponseParser.expecting requests))) := by
  refine ⟨⟨parsing.ends, parsing.ends, Chunks.loop.ends⟩, ?_, fun hwrap => ?_⟩
  · exact cuts_agree HTTPRequestParser.cuttable (fun _ => trivial) resume_nil
      (fun _ _ _ _ => trivial) hxs hys
  · rw [HTTPResponseParser.expecting_eq] at hwrap ⊢
    exact cuts_agree HTTPResponseParser.cuttable (fun _ => HTTPResponseParser.cuttable.initial)
      resume_nil hwrap hxs hys

def getRequest : HTTPRequest :=
  { expectedBodySize := (true, 0), firstLine := ascii "GET / HTTP/1.1", state := .complete,
    members := {} }

/-- The head of a chunked response. -/
def responseHead : Bytes := ascii "HTTP/1.1 200 OK\r\nTransfer-Encoding: chunked\r\n\r\n"

/-- A chunked response, cut in its chunk. -/
theorem segmentation_independent_chunked :
    Agree
      (run parse [responseHead ++ ascii "2\r\nhi\r\n0\r\n\r\n"]
        (HTTPResponseParser.expecting [getRequest]))
      (run parse [responseHead ++ ascii "2\r\nh", ascii "i\r\n0\r\n\r\n"]
        (HTTPResponseParser.expecting [getRequest])) :=
  (segmentation_independent [getRequest] (s := responseHead ++ ascii "2\r\nhi\r\n0\r\n\r\n")
    ⟨by decide +kernel, by decide +kernel⟩ ⟨by decide +kernel, by decide +kernel⟩).2.2
    (HTTPResponseParser.wrapFree_of_short (by decide +kernel))

/-! ### A size that wraps -/

/-- The parser of a body, after the header of a chunk of 2 ^ 32 - 2 bytes. -/
def inWrappingChunk : ChunkedBodyParser :=
  { currentChunkSize := 2 ^ 32 - 2, parsedSoFar := 10, state := .chunk, trailersEnabled := false,
    ackedSoFar := 10 }

def inWrappingBody : HTTPResponseParser :=
  { messageInProgress :=
      { firstLine := ascii "HTTP/1.1 200 OK"
        headers := [{ key := ascii "Transfer-Encoding", value := ascii "chunked" }]
        body := ascii "FFFFFFFE\r\n"
        state := .bodyPending
        members :=
          { request := getRequest
            bodyParser := some (.chunked inWrappingChunk) } }
    members := {} }

def wrappingHead : Bytes := responseHead ++ ascii "FFFFFFFE\r\n"

theorem parse_wrappingHead :
    parse wrappingHead (HTTPResponseParser.expecting [getRequest]) = .ok inWrappingBody := by
  decide +kernel

/-- The rest of a body whose chunk of 2 ^ 32 - 2 bytes begins like the end of a body, after its
first byte. -/
def wrappingTail (padding : Bytes) : Bytes := ascii "\r\n\r\n" ++ (padding ++ CRLF)

def wrappingRest (padding : Bytes) : Bytes := ascii "0" ++ wrappingTail padding

/-- The bytes of the end of a body, and of its two parts. -/
theorem ascii_ending :
    ascii "0\r\n\r\n" = [48, 13, 10, 13, 10] ∧ ascii "0" = [48] ∧
      ascii "\r\n\r\n" = [13, 10, 13, 10] := by
  decide +kernel

theorem wrappingRest_eq (padding : Bytes) :
    wrappingRest padding = ascii "0\r\n\r\n" ++ (padding ++ CRLF) := by
  obtain ⟨hend, hzero, hlines⟩ := ascii_ending
  rw [wrappingRest, wrappingTail, hend, hzero, hlines]
  rfl

theorem wrappingByte_ne : ascii "0" ≠ [] := by
  rw [ascii_ending.2.1]
  exact List.cons_ne_nil _ _

theorem wrappingTail_ne (padding : Bytes) : wrappingTail padding ≠ [] := by
  rw [wrappingTail, ascii_ending.2.2]
  exact List.cons_ne_nil _ _

theorem wrappingRest_ne (padding : Bytes) : wrappingRest padding ≠ [] :=
  List.append_ne_nil_of_left_ne_nil wrappingByte_ne _

theorem substr_wrappingRest {padding : Bytes} (h : padding.length = 2 ^ 32 - 7) :
    substr (wrappingRest padding) (2 ^ 32 - 2) 2 = .ok CRLF := by
  have hend : (ascii "0\r\n\r\n").length = 5 := by
    rw [ascii_ending.1]
    rfl
  have hlength : (ascii "0\r\n\r\n" ++ padding).length = 2 ^ 32 - 2 := by
    rw [List.length_append]
    omega
  have hle : ¬ (ascii "0\r\n\r\n" ++ padding ++ CRLF).length < 2 ^ 32 - 2 := by
    rw [List.length_append]
    omega
  rw [wrappingRest_eq, ← List.append_assoc, substr, if_neg hle, List.drop_left' hlength]
  rfl

/-- At once, the chunk is taken for empty, and its data for the end of the body. -/
theorem read_wrappingRest {padding : Bytes} (h : padding.length = 2 ^ 32 - 7) :
    inWrappingChunk.read (wrappingRest padding) = .ok (.done 5) := by
  let c : Chunks := inWrappingChunk.toChunks.append (wrappingRest padding)
  let ended : Chunks := { inWrappingChunk.toChunks with
    state := .chunkHdr
    parserBuffer := ascii "0\r\n\r\n" }
  -- 2 ^ 32 - 2 + 2 is 0 in 32 bits: nothing of the chunk is taken
  have hneeded : inWrappingChunk.needed = 0 := by decide
  have hand : c.parserBuffer ≠ [] ∧ c.needed ≤ c.parserBuffer.length :=
    ⟨wrappingRest_ne padding, by rw [Chunks.append_needed, hneeded]; exact Nat.zero_le _⟩
  have hcrlf : substr c.parserBuffer c.currentChunkSize 2 = .ok CRLF := substr_wrappingRest h
  have hstep : c.step = .ok (.more (ended.append (padding ++ CRLF))) := by
    have hafter : c.afterChunk = ended.append (padding ++ CRLF) := by
      rw [Chunks.afterChunk, Chunks.append_needed, hneeded, Chunks.append_buffer, wrappingRest_eq]
      rfl
    rw [Chunks.step_chunk (c := c) rfl, if_pos hand, Chunks.endChunk, hcrlf, ok_bind,
      assert_pos rfl, ok_bind, hafter]
    rfl
  -- the chunk's own first bytes are the header of an empty chunk and the end of the body
  have hended : Chunks.loop.run ended = .ok (.found 15) := by decide +kernel
  have hrun : Chunks.loop.run c = .ok (.found 15) :=
    (Loop.run_more hstep).trans (Chunks.run_found _ hended)
  rw [ChunkedBodyParser.read, show Chunks.loop.run _ = _ from hrun]
  rfl

/-- At once, the response is complete. -/
theorem resume_wrappingRest {padding : Bytes} (h : padding.length = 2 ^ 32 - 7) :
    completed (resume (wrappingRest padding) inWrappingBody) ≠ [] := by
  let q : HTTPResponseParser := inWrappingBody.append (wrappingRest padding)
  let r := HTTPResponse.afterRead (wrappingRest padding) inWrappingBody.messageInProgress (.done 5)
  have hread : q.messageInProgress.readInBody q.buffer = .ok r := by
    rw [HTTPMessage.readInBody_unknown rfl rfl]
    refine (HTTPResponse.readInComplexBody_eq rfl rfl).trans ?_
    rw [BodyParser.read, show inWrappingChunk.read q.buffer = _ from read_wrappingRest h]
    rfl
  have hacked : inWrappingChunk.Acked := rfl
  have hle : r.1 ≤ q.buffer.length := ChunkedBodyParser.read_le hacked (read_wrappingRest h)
  have hbody : parsingStep q = .ok (.more (q.afterBody r)) := by
    rw [parsingStep_body rfl, hread, ok_bind, assert_pos (.inr rfl), ok_bind, assert_pos hle]
    rfl
  have hcomplete := run_completed_of_complete (q := q.afterBody r) rfl
  intro hnil
  rw [resume, Loop.run_more (parsing_step_ok.mpr hbody)] at hnil
  rw [hnil, List.prefix_nil] at hcomplete
  exact List.cons_ne_nil _ _ hcomplete

/-- In two pieces, the first byte of the chunk is refused. -/
theorem resume_wrappingByte :
    resume (ascii "0") inWrappingBody = .error (.outOfRange, []) := by
  decide +kernel

theorem wrapping_cuts {padding : Bytes} :
    Cut (wrappingHead ++ wrappingRest padding) [wrappingHead, wrappingRest padding] ∧
      Cut (wrappingHead ++ wrappingRest padding)
        [wrappingHead, ascii "0", wrappingTail padding] := by
  have hhead : wrappingHead ≠ [] := by decide +kernel
  refine ⟨⟨?_, ?_⟩, ?_, ?_⟩
  · rw [List.flatten_cons, List.flatten_cons, List.flatten_nil, List.append_nil]
  · exact List.forall_mem_cons.mpr ⟨hhead, List.forall_mem_singleton.mpr (wrappingRest_ne padding)⟩
  · rw [List.flatten_cons, List.flatten_cons, List.flatten_cons, List.flatten_nil, List.append_nil,
      wrappingRest]
  · exact List.forall_mem_cons.mpr ⟨hhead, List.forall_mem_cons.mpr
      ⟨wrappingByte_ne, List.forall_mem_singleton.mpr (wrappingTail_ne padding)⟩⟩

theorem wrapping_disagree {padding : Bytes} (h : padding.length = 2 ^ 32 - 7) :
    ¬ Agree
      (run parse [wrappingHead, wrappingRest padding] (HTTPResponseParser.expecting [getRequest]))
      (run parse [wrappingHead, ascii "0", wrappingTail padding]
        (HTTPResponseParser.expecting [getRequest])) := by
  intro hagree
  -- one run has a complete message, the other has none
  have hcompleted := hagree.completed_eq
  rw [run_cons, run_cons, parse_wrappingHead, ok_bind, ok_bind, run_cons, run_cons,
    parse_eq (wrappingRest_ne padding), parse_eq wrappingByte_ne,
    resume_wrappingByte] at hcompleted
  refine resume_wrappingRest h (.trans ?_ hcompleted)
  cases resume (wrappingRest padding) inWrappingBody <;> rfl

/-- **A size that wraps tells two cuts apart.**  At once, the response is complete; when the chunk
comes byte by byte, it is refused. -/
theorem wrap_differs :
    Cut (wrappingHead ++ wrappingRest (.replicate (2 ^ 32 - 7) 120))
        [wrappingHead, wrappingRest (.replicate (2 ^ 32 - 7) 120)] ∧
      Cut (wrappingHead ++ wrappingRest (.replicate (2 ^ 32 - 7) 120))
        [wrappingHead, ascii "0", wrappingTail (.replicate (2 ^ 32 - 7) 120)] ∧
      ¬ Agree
        (run parse [wrappingHead, wrappingRest (.replicate (2 ^ 32 - 7) 120)]
          (HTTPResponseParser.expecting [getRequest]))
        (run parse [wrappingHead, ascii "0", wrappingTail (.replicate (2 ^ 32 - 7) 120)]
          (HTTPResponseParser.expecting [getRequest])) :=
  ⟨wrapping_cuts.1, wrapping_cuts.2, wrapping_disagree List.length_replicate⟩

end Mahimahi
