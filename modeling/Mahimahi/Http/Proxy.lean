import Mahimahi.Http.Sequence

/-!
# Http — a proxied connection

`HTTPProxy::loop` ferries the requests of a client to a server, and the responses back.  A
`Connection` is its two parsers with what it has written and saved; a `ProxyEvent` is one of its four
actions.  When a string is written depends on the poller, so a run takes the actions in any order.
-/

open Fallible

namespace Mahimahi

open HTTPMessageSequence

def HTTPMessageSequence.pop {D P : Type} (q : HTTPMessageSequence D P) : HTTPMessageSequence D P :=
  { q with completeMessages := q.completeMessages.tail }

structure Connection where
  requestParser : HTTPRequestParser := HTTPRequestParser.new
  responseParser : HTTPResponseParser := HTTPResponseParser.new
  writtenToServer : Bytes := []
  writtenToClient : Bytes := []
  /-- the requests and responses in the backing store -/
  saved : List (Record × Record) := []
  deriving DecidableEq, Repr

/-- What the poller reports. -/
inductive ProxyEvent where
  | serverIn (buffer : Bytes)
  | clientIn (buffer : Bytes)
  | serverOut
  | clientOut
  deriving DecidableEq, Repr

namespace Connection

/-- The action of an event.  The poller does not ask for the last two while their parser is empty. -/
def step : ProxyEvent → Connection → Except HTTPError Connection
  | .serverIn buffer, c => do
      let responseParser ← (parse buffer c.responseParser).mapError Prod.fst
      return { c with responseParser }
  | .clientIn buffer, c => do
      let requestParser ← (parse buffer c.requestParser).mapError Prod.fst
      return { c with requestParser }
  | .serverOut, c =>
      match c.requestParser.completeMessages with
      | [] => return c
      | request :: _ => do
          let str ← request.str
          return { c with
            writtenToServer := c.writtenToServer ++ str
            responseParser := c.responseParser.newRequestArrived request
            requestParser := c.requestParser.pop }
  | .clientOut, c =>
      match c.responseParser.completeMessages with
      | [] => return c
      | response :: _ => do
          let str ← response.str
          let request ← response.members.request.toprotobuf
          let record ← response.toprotobuf
          return { c with
            writtenToClient := c.writtenToClient ++ str
            saved := c.saved ++ [(request, record)]
            responseParser := c.responseParser.pop }

end Connection

end Mahimahi
