import Mahimahi.Http.Chunked
import Mahimahi.Http.Message

/-!
# Http — responses

A response knows the request it answers.  Its body has a size that is known, or a parser of its own:
`ChunkedBodyParser`, or `Rule5BodyParser` for a body that only the end of the stream ends.
-/

open Fallible MachineInt

namespace Mahimahi

open Search Ezio

inductive BodyParser where
  | chunked (p : ChunkedBodyParser)
  | rule5
  deriving DecidableEq, Repr

namespace BodyParser

def read (str : Bytes) : BodyParser → Except HTTPError (BodyRead BodyParser)
  | .chunked p => do
      match ← p.read str with
      | .all p => return .all (.chunked p)
      | .done n => return .done n
  | .rule5 => .ok (.all .rule5)

/-- Whether an end of file completes the message. -/
def eof : BodyParser → Bool
  | .chunked _ => true
  | .rule5 => true

end BodyParser

structure ResponseMembers where
  request : HTTPRequest := HTTPMessage.new
  bodyParser : Option BodyParser := none
  deriving DecidableEq, Repr

abbrev HTTPResponse := HTTPMessage ResponseMembers

namespace HTTPResponse

def statusCode (m : HTTPResponse) : Except HTTPError Bytes := do
  assert (m.state ≠ .firstLinePending)
  match ← split m.firstLine (ascii " ") with
  | _ :: code :: _ :: _ => return code
  | _ => throw (.invalidStatusLine m.firstLine)

/-- Rule 1: the size is known to be zero. -/
def hasNoBody (m : HTTPResponse) : Except HTTPError Bool := do
  match ← m.statusCode with
  | [] => throw .outOfRange
  | c :: code =>
      if c = 49 ∨ c :: code = ascii "204" ∨ c :: code = ascii "304" then return true
      else HTTPRequest.isHead m.members.request

/-- Rule 2: the last of the transfer encodings is `chunked`. -/
def isChunked (m : HTTPResponse) : Except HTTPError Bool :=
  if m.hasHeader (ascii "Transfer-Encoding") then do
    let value ← m.getHeaderValue (ascii "Transfer-Encoding")
    let encodings ← split value (ascii ",")
    return encodings.getLast?.any fun encoding => equivalentStrings encoding (ascii "chunked")
  else return false

/-- Rule 4. -/
def isMultipart (m : HTTPResponse) : Except HTTPError Bool :=
  if m.hasHeader (ascii "Content-Type") then do
    let value ← m.getHeaderValue (ascii "Content-Type")
    let type ← mimeType value
    return equivalentStrings type (ascii "multipart/byteranges")
  else return false

/-- `set_expected_body_size( false )` and a new body parser. -/
def setBodyParser (parser : BodyParser) (m : HTTPResponse) : Except HTTPError HTTPResponse := do
  let m ← m.setExpectedBodySize false (2 ^ 64 - 1)
  return { m with members := { m.members with bodyParser := some parser } }

/-- The rules of RFC 2616 section 4.4. -/
def calculateExpectedBodySize (m : HTTPResponse) : Except HTTPError HTTPResponse := do
  assert (m.state = .bodyPending)
  if ← m.hasNoBody then m.setExpectedBodySize true 0
  else if ← m.isChunked then
    m.setBodyParser (.chunked { trailersEnabled := m.hasHeader (ascii "Trailer") })
  else if !m.hasHeader (ascii "Transfer-Encoding") && m.hasHeader (ascii "Content-Length") then
    let value ← m.getHeaderValue (ascii "Content-Length")
    let size ← readInteger 10 value
    m.setExpectedBodySize true (toU64 size)
  else if ← m.isMultipart then throw .multipartByteranges
  else m.setBodyParser .rule5

def readInComplexBody (str : Bytes) (m : HTTPResponse) : Except HTTPError (Nat × HTTPResponse) := do
  assert (m.state = .bodyPending)
  match m.members.bodyParser with
  | none => throw .assertion
  | some parser =>
      match ← parser.read str with
      | .all parser =>
          -- all of it belongs to the body
          return (str.length, { m with
            body := m.body ++ str
            members := { m.members with bodyParser := some parser } })
      | .done n =>
          -- body is now complete
          return (n, { m with
            body := m.body ++ str.take n
            state := .complete
            members := { m.members with bodyParser := none } })

def eofInBody (m : HTTPResponse) : Except HTTPError Bool :=
  match m.members.bodyParser with
  | some parser => .ok parser.eof
  | none => .error .eofInBody

instance : MessageType ResponseMembers where
  initial := {}
  calculateExpectedBodySize := calculateExpectedBodySize
  readInComplexBody := readInComplexBody
  eofInBody := eofInBody

def setRequest (request : HTTPRequest) (m : HTTPResponse) : Except HTTPError HTTPResponse := do
  assert (m.state = .firstLinePending)
  return { m with members := { m.members with request } }

end HTTPResponse

end Mahimahi
