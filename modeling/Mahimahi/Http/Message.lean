import Mahimahi.Http.Header

/-!
# Http — messages

`HTTPMessage D` is `HTTPMessage` with the members `D` that a subclass adds; `MessageType D` are the
virtual functions.  A parser calls `setFirstLine`, then `addHeader` for every header and
`doneWithHeaders`, then `readInBody` until the message is complete.
-/

open Fallible MachineInt

namespace Mahimahi

open Search Ezio

inductive HTTPMessageState where
  | firstLinePending
  | headersPending
  | bodyPending
  | complete
  deriving DecidableEq, Repr

structure HTTPMessage (D : Type) where
  /-- whether the size is known, and what it is -/
  expectedBodySize : Bool × Nat := (false, 2 ^ 64 - 1)
  firstLine : Bytes := []
  headers : List HTTPHeader := []
  body : Bytes := []
  state : HTTPMessageState := .firstLinePending
  members : D
  deriving DecidableEq, Repr

/-- The value of the first header of that name. -/
def headerValue (headerName : Bytes) (headers : List HTTPHeader) : Option Bytes :=
  (headers.find? fun header => equivalentStrings header.key headerName).map HTTPHeader.value

/-- `MahimahiProtobufs::HTTPMessage` -/
structure Record where
  firstLine : Bytes
  headers : List HTTPHeader
  body : Bytes
  deriving DecidableEq, Repr

class MessageType (D : Type) where
  /-- the members of a new message -/
  initial : D
  calculateExpectedBodySize : HTTPMessage D → Except HTTPError (HTTPMessage D)
  /-- how much of the string belongs to the body -/
  readInComplexBody : Bytes → HTTPMessage D → Except HTTPError (Nat × HTTPMessage D)
  eofInBody : HTTPMessage D → Except HTTPError Bool

namespace HTTPMessage

variable {D : Type}

def setFirstLine (str : Bytes) (m : HTTPMessage D) : Except HTTPError (HTTPMessage D) := do
  assert (m.state = .firstLinePending)
  return { m with firstLine := str, state := .headersPending }

def addHeader (str : Bytes) (m : HTTPMessage D) : Except HTTPError (HTTPMessage D) := do
  assert (m.state = .headersPending)
  let header ← HTTPHeader.ofLine str
  return { m with headers := m.headers ++ [header] }

def setExpectedBodySize (isKnown : Bool) (value : Nat) (m : HTTPMessage D) :
    Except HTTPError (HTTPMessage D) := do
  assert (m.state = .bodyPending)
  return { m with expectedBodySize := (isKnown, value) }

def bodySizeIsKnown (m : HTTPMessage D) : Except HTTPError Bool := do
  assert (m.state = .bodyPending ∨ m.state = .complete)
  return m.expectedBodySize.1

/-- `expected_body_size()` -/
def expectedSize (m : HTTPMessage D) : Except HTTPError Nat := do
  let known ← m.bodySizeIsKnown
  assert known
  return m.expectedBodySize.2

def hasHeader (headerName : Bytes) (m : HTTPMessage D) : Bool :=
  m.headers.any fun header => equivalentStrings header.key headerName

def getHeaderValue (headerName : Bytes) (m : HTTPMessage D) : Except HTTPError Bytes :=
  match m.headers.find? fun header => equivalentStrings header.key headerName with
  | some header => .ok header.value
  | none => .error (.headerNotFound headerName)

/-- The message as one string: the first line, the headers, a blank line and the body. -/
def text (m : HTTPMessage D) : Bytes :=
  m.firstLine ++ CRLF ++ m.headers.flatMap (fun header => header.str ++ CRLF) ++ CRLF ++ m.body

def str (m : HTTPMessage D) : Except HTTPError Bytes := do
  assert (m.state = .complete)
  return m.text

def record (m : HTTPMessage D) : Record :=
  { firstLine := m.firstLine, headers := m.headers, body := m.body }

def toprotobuf (m : HTTPMessage D) : Except HTTPError Record := do
  assert (m.state = .complete)
  return m.record

theorem str_eq {m : HTTPMessage D} (h : m.state = .complete) : m.str = .ok m.text := by
  rw [str, assert_pos h]
  rfl

theorem toprotobuf_eq {m : HTTPMessage D} (h : m.state = .complete) :
    m.toprotobuf = .ok m.record := by
  rw [toprotobuf, assert_pos h]
  rfl

theorem setExpectedBodySize_eq {m : HTTPMessage D} (h : m.state = .bodyPending) (isKnown : Bool)
    (value : Nat) :
    m.setExpectedBodySize isKnown value = .ok { m with expectedBodySize := (isKnown, value) } := by
  rw [setExpectedBodySize, assert_pos h]
  rfl

theorem hasHeader_eq {m : HTTPMessage D} (headerName : Bytes) :
    m.hasHeader headerName = (headerValue headerName m.headers).isSome := by
  rw [hasHeader, headerValue, Option.isSome_map, List.isSome_find?]

theorem getHeaderValue_eq {m : HTTPMessage D} {headerName value : Bytes}
    (h : headerValue headerName m.headers = some value) :
    m.getHeaderValue headerName = .ok value := by
  obtain ⟨header, hheader, rfl⟩ := Option.map_eq_some_iff.mp h
  rw [getHeaderValue, hheader]

variable [MessageType D]

/-- `MessageType()` -/
def new : HTTPMessage D := { members := MessageType.initial }

/-- The constructor from a protobuf. -/
def ofRecord (proto : Record) : HTTPMessage D where
  firstLine := proto.firstLine
  headers := proto.headers
  body := proto.body
  state := .complete
  members := MessageType.initial

@[simp] theorem ofRecord_firstLine (proto : Record) :
    (ofRecord proto : HTTPMessage D).firstLine = proto.firstLine := rfl

@[simp] theorem ofRecord_headers (proto : Record) :
    (ofRecord proto : HTTPMessage D).headers = proto.headers := rfl

@[simp] theorem ofRecord_state (proto : Record) :
    (ofRecord proto : HTTPMessage D).state = .complete := rfl

def doneWithHeaders (m : HTTPMessage D) : Except HTTPError (HTTPMessage D) := do
  assert (m.state = .headersPending)
  MessageType.calculateExpectedBodySize { m with state := .bodyPending }

def readInBody (str : Bytes) (m : HTTPMessage D) : Except HTTPError (Nat × HTTPMessage D) := do
  assert (m.state = .bodyPending)
  if ← m.bodySizeIsKnown then
    let expected ← m.expectedSize
    assert (m.body.length ≤ expected)
    let amountToAppend := min (expected - m.body.length) str.length
    let body := m.body ++ str.take amountToAppend
    let state := if body.length = expected then .complete else m.state
    return (amountToAppend, { m with body, state })
  else MessageType.readInComplexBody str m

def eof (m : HTTPMessage D) : Except HTTPError (HTTPMessage D) :=
  match m.state with
  | .firstLinePending => .ok m
  | .headersPending => .error .eofInHeaders
  | .bodyPending => do
      let complete ← MessageType.eofInBody m
      return if complete then { m with state := .complete } else m
  | .complete => .error .assertion

end HTTPMessage

/-! ### Requests -/

/-- A request adds no members. -/
structure RequestMembers where
  deriving DecidableEq, Repr

abbrev HTTPRequest := HTTPMessage RequestMembers

namespace HTTPRequest

def calculateExpectedBodySize (m : HTTPRequest) : Except HTTPError HTTPRequest := do
  assert (m.state = .bodyPending)
  if m.firstLine.take 4 = ascii "GET " ∨ m.firstLine.take 5 = ascii "HEAD " then
    m.setExpectedBodySize true 0
  else if m.firstLine.take 5 = ascii "POST " then
    if m.hasHeader (ascii "Content-Length") then
      let value ← m.getHeaderValue (ascii "Content-Length")
      let size ← readInteger 10 value
      m.setExpectedBodySize true (toU64 size)
    else throw .chunkedRequest
  else throw (.unknownMethod m.firstLine)

instance : MessageType RequestMembers where
  initial := {}
  calculateExpectedBodySize := calculateExpectedBodySize
  readInComplexBody _ _ := .error .chunkedRequest
  eofInBody _ := .error .eofInBody

def isHead (m : HTTPRequest) : Except HTTPError Bool := do
  assert (m.state ≠ .firstLinePending)
  return m.firstLine.take 5 == ascii "HEAD "

end HTTPRequest

end Mahimahi
