import Mahimahi.Http.Response

/-!
# Http — the parsers

`HTTPMessageSequence D P` reads messages of type `D` off a stream; `P` are the members that the
parser's class adds.  `parse` appends to the buffer and takes steps until one asks for more:
`parsing` is that loop.  An error comes with the messages that were complete.
-/

open Fallible

namespace Mahimahi

open Search Loops

def haveCompleteLine (buffer : Bytes) : Bool := (find CRLF buffer).isSome

def popBytes (num : Nat) (buffer : Bytes) : Except HTTPError Bytes := do
  assert (num ≤ buffer.length)
  return buffer.drop num

/-- The line, and the buffer without it. -/
def getAndPopLine (buffer : Bytes) : Except HTTPError (Bytes × Bytes) :=
  match find CRLF buffer with
  | none => .error .assertion
  | some firstLineEnding => do
      let rest ← popBytes (firstLineEnding + CRLF.length) buffer
      return (buffer.take firstLineEnding, rest)

structure HTTPMessageSequence (D P : Type) where
  buffer : Bytes := []
  completeMessages : List (HTTPMessage D) := []
  messageInProgress : HTTPMessage D
  members : P
  deriving DecidableEq, Repr

/-- The virtual function of a parser. -/
class SequenceType (D P : Type) where
  initializeNewMessage : P → HTTPMessage D → Except HTTPError (P × HTTPMessage D)

namespace HTTPMessageSequence

variable {D P : Type} [MessageType D] [SequenceType D P]

def parsingStep (q : HTTPMessageSequence D P) :
    Except HTTPError (Next (HTTPMessageSequence D P) (HTTPMessageSequence D P)) :=
  match q.messageInProgress.state with
  | .firstLinePending =>
      if haveCompleteLine q.buffer then do
        let (members, m) ← SequenceType.initializeNewMessage q.members q.messageInProgress
        let (line, buffer) ← getAndPopLine q.buffer
        let m ← m.setFirstLine line
        return .more { q with members, buffer, messageInProgress := m }
      else return .stop q
  | .headersPending =>
      if haveCompleteLine q.buffer then do
        let (line, buffer) ← getAndPopLine q.buffer
        let m ← if line.isEmpty then q.messageInProgress.doneWithHeaders
          else q.messageInProgress.addHeader line
        return .more { q with buffer, messageInProgress := m }
      else return .stop q
  | .bodyPending => do
      let (bytesRead, m) ← q.messageInProgress.readInBody q.buffer
      assert (bytesRead = q.buffer.length ∨ m.state = .complete)
      let buffer ← popBytes bytesRead q.buffer
      let q := { q with buffer, messageInProgress := m }
      return if m.state = .complete then .more q else .stop q
  | .complete =>
      return .more { q with
        completeMessages := q.completeMessages ++ [q.messageInProgress]
        messageInProgress := HTTPMessage.new }

/-! ### What a step does -/

def beginMessage (line : Bytes) (q : HTTPMessageSequence D P) :
    Except HTTPError (P × HTTPMessage D) := do
  let (members, m) ← SequenceType.initializeNewMessage q.members q.messageInProgress
  let m ← m.setFirstLine line
  return (members, m)

def headerLine (line : Bytes) (m : HTTPMessage D) :
    Except HTTPError (HTTPMessage D) :=
  if line.isEmpty then m.doneWithHeaders else m.addHeader line

variable {q q' : HTTPMessageSequence D P} {i : Nat}

theorem getAndPopLine_eq {buffer : Bytes} (h : find CRLF buffer = some i) :
    getAndPopLine buffer = .ok (buffer.take i, buffer.drop (i + 2)) := by
  have hle : i + CRLF.length ≤ buffer.length := find_le h
  rw [getAndPopLine, h]
  dsimp only
  rw [popBytes, assert_pos hle]
  rfl

theorem parsingStep_firstLine (h : q.messageInProgress.state = .firstLinePending) :
    parsingStep q = match find CRLF q.buffer with
      | some i => (q.beginMessage (q.buffer.take i)).map fun r =>
          .more { q with members := r.1, buffer := q.buffer.drop (i + 2), messageInProgress := r.2 }
      | none => .ok (.stop q) := by
  unfold parsingStep beginMessage haveCompleteLine
  rw [h]
  cases hline : find CRLF q.buffer with
  | none => rfl
  | some i =>
      dsimp only [Option.isSome_some]
      rw [if_pos rfl, getAndPopLine_eq hline]
      cases SequenceType.initializeNewMessage q.members q.messageInProgress with
      | error e => rfl
      | ok r =>
          dsimp only [ok_bind]
          cases r.2.setFirstLine (q.buffer.take i) <;> rfl

theorem parsingStep_headers (h : q.messageInProgress.state = .headersPending) :
    parsingStep q = match find CRLF q.buffer with
      | some i => (headerLine (q.buffer.take i) q.messageInProgress).map fun m =>
          .more { q with buffer := q.buffer.drop (i + 2), messageInProgress := m }
      | none => .ok (.stop q) := by
  unfold parsingStep headerLine haveCompleteLine
  rw [h]
  cases hline : find CRLF q.buffer with
  | none => rfl
  | some i =>
      dsimp only [Option.isSome_some]
      rw [if_pos rfl, getAndPopLine_eq hline, ok_bind]
      dsimp only
      split
      · cases q.messageInProgress.doneWithHeaders <;> rfl
      · cases q.messageInProgress.addHeader (q.buffer.take i) <;> rfl

/-- The state after `readInBody` has read `r.1` bytes. -/
def afterBody (r : Nat × HTTPMessage D) (q : HTTPMessageSequence D P) : HTTPMessageSequence D P :=
  { q with buffer := q.buffer.drop r.1, messageInProgress := r.2 }

theorem parsingStep_body (h : q.messageInProgress.state = .bodyPending) :
    parsingStep q = (do
      let r ← q.messageInProgress.readInBody q.buffer
      assert (r.1 = q.buffer.length ∨ r.2.state = .complete)
      assert (r.1 ≤ q.buffer.length)
      return if r.2.state = .complete then .more (q.afterBody r) else .stop (q.afterBody r)) := by
  unfold parsingStep popBytes
  rw [h]
  dsimp only
  cases q.messageInProgress.readInBody q.buffer with
  | error e => rfl
  | ok r =>
      dsimp only [ok_bind]
      cases assert (r.1 = q.buffer.length ∨ r.2.state = .complete) with
      | error e => rfl
      | ok u => cases assert (r.1 ≤ q.buffer.length) <;> rfl

theorem parsingStep_complete (h : q.messageInProgress.state = .complete) :
    parsingStep q = .ok (.more { q with
      completeMessages := q.completeMessages ++ [q.messageInProgress]
      messageInProgress := HTTPMessage.new }) := by
  unfold parsingStep
  rw [h]
  rfl

/-- A step that has read a part of the body. -/
theorem parsingStep_body_ok {n : Next (HTTPMessageSequence D P) (HTTPMessageSequence D P)}
    (hstate : q.messageInProgress.state = .bodyPending) (h : parsingStep q = .ok n) :
    ∃ r, q.messageInProgress.readInBody q.buffer = .ok r ∧ r.1 ≤ q.buffer.length ∧
      ((r.2.state = .complete ∧ n = .more (q.afterBody r)) ∨
        (r.2.state ≠ .complete ∧ r.1 = q.buffer.length ∧ n = .stop (q.afterBody r))) := by
  rw [parsingStep_body hstate] at h
  obtain ⟨r, hr, h⟩ := bind_ok.mp h
  obtain ⟨_, hall, h⟩ := bind_ok.mp h
  obtain ⟨_, hle, h⟩ := bind_ok.mp h
  refine ⟨r, hr, assert_ok.mp hle, ?_⟩
  by_cases hc : r.2.state = .complete
  · rw [if_pos hc] at h
    cases h
    exact .inl ⟨hc, rfl⟩
  · rw [if_neg hc] at h
    cases h
    exact .inr ⟨hc, (assert_ok.mp hall).resolve_right hc, rfl⟩

/-- What a step that goes on has done. -/
theorem parsingStep_more (h : parsingStep q = .ok (.more q')) :
    (q.messageInProgress.state = .firstLinePending ∧ ∃ i r, find CRLF q.buffer = some i ∧
        q.beginMessage (q.buffer.take i) = .ok r ∧ q' =
          { q with members := r.1, buffer := q.buffer.drop (i + 2), messageInProgress := r.2 }) ∨
      (q.messageInProgress.state = .headersPending ∧ ∃ i m, find CRLF q.buffer = some i ∧
        headerLine (q.buffer.take i) q.messageInProgress = .ok m ∧
        q' = { q with buffer := q.buffer.drop (i + 2), messageInProgress := m }) ∨
      (q.messageInProgress.state = .bodyPending ∧ ∃ r,
        q.messageInProgress.readInBody q.buffer = .ok r ∧ r.1 ≤ q.buffer.length ∧
        r.2.state = .complete ∧ q' = q.afterBody r) ∨
      (q.messageInProgress.state = .complete ∧ q' = { q with
        completeMessages := q.completeMessages ++ [q.messageInProgress]
        messageInProgress := HTTPMessage.new }) := by
  cases hstate : q.messageInProgress.state with
  | firstLinePending =>
      rw [parsingStep_firstLine hstate] at h
      split at h
      next i hi =>
        obtain ⟨r, hr, hnext⟩ := of_map_ok h
        cases hnext
        exact .inl ⟨rfl, i, r, hi, hr, rfl⟩
      · cases h
  | headersPending =>
      rw [parsingStep_headers hstate] at h
      split at h
      next i hi =>
        obtain ⟨m, hm, hnext⟩ := of_map_ok h
        cases hnext
        exact .inr (.inl ⟨rfl, i, m, hi, hm, rfl⟩)
      · cases h
  | bodyPending =>
      obtain ⟨r, hr, hle, ⟨hc, hn⟩ | ⟨-, -, hn⟩⟩ := parsingStep_body_ok hstate h
      · cases hn
        exact .inr (.inr (.inl ⟨rfl, r, hr, hle, hc, rfl⟩))
      · cases hn
  | complete =>
      rw [parsingStep_complete hstate] at h
      cases h
      exact .inr (.inr (.inr ⟨rfl, rfl⟩))

/-! ### The loop of `parse` -/

/-- What a step shortens: the buffer, or the way to a new message. -/
def measure (q : HTTPMessageSequence D P) : Nat :=
  2 * q.buffer.length + match q.messageInProgress.state with
    | .bodyPending => 2
    | .complete => 1
    | _ => 0

theorem rank_le (state : HTTPMessageState) : (match state with
    | .bodyPending => 2
    | .complete => 1
    | _ => 0) ≤ 2 := by
  cases state <;> decide

theorem parsingStep_shrinks (h : parsingStep q = .ok (.more q')) : q'.measure < q.measure := by
  unfold measure
  have hrank := rank_le q'.messageInProgress.state
  rcases parsingStep_more h with ⟨hstate, i, r, hi, -, rfl⟩ | ⟨hstate, i, m, hi, -, rfl⟩ |
    ⟨hstate, r, -, -, hc, rfl⟩ | ⟨hstate, rfl⟩
  · have hle : i + 2 ≤ q.buffer.length := find_le hi
    rw [hstate]
    dsimp only at hrank ⊢
    rw [List.length_drop]
    omega
  · have hle : i + 2 ≤ q.buffer.length := find_le hi
    rw [hstate]
    dsimp only at hrank ⊢
    rw [List.length_drop]
    omega
  · rw [hstate, afterBody, hc, List.length_drop]
    dsimp only
    omega
  · rw [hstate]
    exact Nat.lt_succ_self _

theorem parsingStep_length (h : parsingStep q = .ok (.more q')) :
    q'.buffer.length ≤ q.buffer.length := by
  rcases parsingStep_more h with ⟨-, i, r, -, -, rfl⟩ | ⟨-, i, m, -, -, rfl⟩ |
    ⟨-, r, -, -, -, rfl⟩ | ⟨-, rfl⟩
  · exact (List.drop_sublist _ _).length_le
  · exact (List.drop_sublist _ _).length_le
  · exact (List.drop_sublist _ _).length_le
  · exact Nat.le_refl _

theorem parsingStep_completes (h : parsingStep q = .ok (.more q')) :
    q.completeMessages <+: q'.completeMessages := by
  rcases parsingStep_more h with ⟨-, i, r, -, -, rfl⟩ | ⟨-, i, m, -, -, rfl⟩ |
    ⟨-, r, -, -, -, rfl⟩ | ⟨-, rfl⟩
  · exact List.prefix_rfl
  · exact List.prefix_rfl
  · exact List.prefix_rfl
  · exact List.prefix_append _ _

/-- An error, and the messages that were complete before it. -/
abbrev Failure (D : Type) := HTTPError × List (HTTPMessage D)

/-- `while ( parsing_step() ) {}` -/
def parsing : Loop (Failure D) (HTTPMessageSequence D P) (HTTPMessageSequence D P) where
  step q := (parsingStep q).mapError fun e => (e, q.completeMessages)
  measure := measure
  shrinks h := parsingStep_shrinks (of_mapError_ok h)

def append (q : HTTPMessageSequence D P) (buf : Bytes) : HTTPMessageSequence D P :=
  { q with buffer := q.buffer ++ buf }

/-- An empty `buf` is an end of file. -/
def parse (buf : Bytes) (q : HTTPMessageSequence D P) :
    Except (Failure D) (HTTPMessageSequence D P) := do
  let m ← (if buf.isEmpty then q.messageInProgress.eof else .ok q.messageInProgress).mapError
    fun e => (e, q.completeMessages)
  parsing.run (append { q with messageInProgress := m } buf)

end HTTPMessageSequence

/-! ### The two parsers -/

/-- A parser of requests adds no members. -/
structure RequestParserMembers where
  deriving DecidableEq, Repr

abbrev HTTPRequestParser := HTTPMessageSequence RequestMembers RequestParserMembers

def HTTPRequestParser.new : HTTPRequestParser :=
  { messageInProgress := HTTPMessage.new, members := {} }

instance : SequenceType RequestMembers RequestParserMembers where
  initializeNewMessage members m := .ok (members, m)

structure ResponseParserMembers where
  requests : List HTTPRequest := []
  deriving DecidableEq, Repr

abbrev HTTPResponseParser := HTTPMessageSequence ResponseMembers ResponseParserMembers

namespace HTTPResponseParser

def initializeNewMessage (members : ResponseParserMembers) (m : HTTPResponse) :
    Except HTTPError (ResponseParserMembers × HTTPResponse) :=
  match members.requests with
  | [] => .error .noMatchingRequest
  | request :: requests => do
      let m ← m.setRequest request
      return ({ requests }, m)

instance : SequenceType ResponseMembers ResponseParserMembers where
  initializeNewMessage := initializeNewMessage

def newRequestArrived (request : HTTPRequest) (q : HTTPResponseParser) : HTTPResponseParser :=
  { q with members := { requests := q.members.requests ++ [request] } }

def new : HTTPResponseParser := { messageInProgress := HTTPMessage.new, members := {} }

/-- A parser that the requests have been given to. -/
def expecting (requests : List HTTPRequest) : HTTPResponseParser :=
  requests.foldl (fun q request => q.newRequestArrived request) new

end HTTPResponseParser

end Mahimahi
