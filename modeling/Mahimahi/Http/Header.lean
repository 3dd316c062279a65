import Mahimahi.Library.Integers
import Mahimahi.Library.Runs
import Mahimahi.Library.Search
import Mahimahi.Util.Ezio

/-!
# Http — headers, and the text functions under them

A `std::string` is the list of its bytes.  Sizes are natural numbers: no string is long enough for a
`size_t` to wrap.
-/

open Fallible MachineInt

namespace Mahimahi

open Search Ezio

def CRLF : Bytes := [13, 10]

/-- The bytes of a literal. -/
def ascii (s : String) : Bytes := s.toUTF8.toList

/-- What stops the HTTP classes: `assertion` is a failed assertion, the others are exceptions. -/
inductive HTTPError where
  /-- `HTTPHeader: buffer does not contain colon` -/
  | noColon
  /-- `HTTPMessage header not found: ` and the name -/
  | headerNotFound (name : Bytes)
  /-- `HTTPMessage: EOF received in middle of headers` -/
  | eofInHeaders
  /-- `HTTPRequest: got EOF in middle of body`, and the same of `HTTPResponse` -/
  | eofInBody
  /-- `HTTPRequest: does not support chunked requests` -/
  | chunkedRequest
  /-- `Cannot handle HTTP method: ` and the line -/
  | unknownMethod (firstLine : Bytes)
  /-- `HTTPResponse: Invalid status line: ` and the line -/
  | invalidStatusLine (firstLine : Bytes)
  /-- `HTTPResponse: unsupported multipart/byteranges without Content-Length` -/
  | multipartByteranges
  /-- `HTTPResponseParser: response without matching request` -/
  | noMatchingRequest
  /-- `MIMEType: invalid MIME media-type string` -/
  | invalidMimeType
  /-- thrown by `myatoi` -/
  | invalidInteger (e : IntegerError)
  /-- `std::out_of_range` -/
  | outOfRange
  | assertion
  deriving DecidableEq, Repr

def assert (p : Prop) [Decidable p] : Except HTTPError Unit :=
  if p then .ok () else .error .assertion

theorem assert_ok {p : Prop} [Decidable p] {u : Unit} : assert p = .ok u ↔ p := by
  unfold assert
  split
  next h => exact iff_of_true rfl h
  next h => exact iff_of_false (fun he => nomatch he) h

theorem assert_pos {p : Prop} [Decidable p] (h : p) : assert p = .ok () := if_pos h

theorem assert_neg {p : Prop} [Decidable p] (h : ¬ p) : assert p = .error .assertion := if_neg h

theorem assert_congr {p q : Prop} [Decidable p] [Decidable q] (h : p ↔ q) :
    assert p = assert q := if_congr h rfl rfl

/-- `str.substr( pos, n )` -/
def substr (str : Bytes) (pos n : Nat) : Except HTTPError Bytes :=
  if str.length < pos then .error .outOfRange else .ok ((str.drop pos).take n)

/-- `myatoi( str, base )` -/
def readInteger (base : Nat) (str : Bytes) : Except HTTPError Int :=
  match myatoi base str with
  | .ok v => .ok v
  | .error e => .error (.invalidInteger e)

/-! ### `tokenize.hh` -/

/-- The places of the separator, which the loop pushes to `indices`. -/
def indicesOf (str separator : Bytes) : List Nat :=
  (List.range (str.length + 1)).filter fun i => separator.isPrefixOf (str.drop i)

def split (str separator : Bytes) : Except HTTPError (List Bytes) :=
  match indicesOf str separator with
  | [] => .ok [str]
  | first :: rest => do
      let inner ← ((first :: rest).zip rest).mapM fun i =>
        substr str (i.1 + separator.length) (toU64 (i.2 - i.1 - separator.length))
      let last ← substr str ((first :: rest).getLast (List.cons_ne_nil _ _) + separator.length)
        str.length
      return str.take first :: inner ++ [last]

/-! ### Headers -/

structure HTTPHeader where
  key : Bytes
  value : Bytes
  deriving DecidableEq, Repr

/-- The constructor. -/
def HTTPHeader.ofLine (buf : Bytes) : Except HTTPError HTTPHeader :=
  match find (ascii ":") buf with
  | none => .error .noColon
  | some i =>
      let valueTemp := buf.drop (i + 1)
      let value := valueTemp.dropWhile (· == 32)
      .ok { key := buf.take i, value := if value.isEmpty then valueTemp else value }

def HTTPHeader.str (header : HTTPHeader) : Bytes := header.key ++ ascii ": " ++ header.value

def httpToLower (c : UInt8) : UInt8 := if 65 ≤ c ∧ c ≤ 90 then c + 32 else c

def stripInitialWhitespace (str : Bytes) : Bytes := str.dropWhile (· == 32)

def equivalentStrings (a b : Bytes) : Bool :=
  let newA := stripInitialWhitespace a
  let newB := stripInitialWhitespace b
  newA.length == newB.length && (newA.zip newB).all fun c => httpToLower c.1 == httpToLower c.2

/-- `MIMEType( contentType ).type()` -/
def mimeType (contentType : Bytes) : Except HTTPError Bytes := do
  match ← split contentType (ascii ";") with
  | [] => throw .invalidMimeType
  | type :: _ => if type.isEmpty then throw .invalidMimeType else return type

example : split (ascii "HTTP/1.1 200 OK") (ascii " ") =
    .ok [ascii "HTTP/1.1", ascii "200", ascii "OK"] := by decide +kernel

end Mahimahi
