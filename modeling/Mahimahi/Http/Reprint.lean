import Mahimahi.Http.Bodies
import Mahimahi.Http.Heads

/-!
# Http — requests that are printed again

A proxy prints every request that it has read.  What it prints reads as the same request, but for a
header whose value is blank: the parser keeps the spaces of such a value, and `str` adds one.

* `HTTPRequest.Parsed`: what holds of a complete request; `completed_parsed` proves it of all that a
  parser completes.
* `leads_requests`: what printed requests are read as.
* `reprint_iff`: that is the same requests exactly when no value is blank.
-/

open Fallible MachineInt

namespace Mahimahi

open Search Ezio Loops HTTPMessageSequence

/-! ### Headers -/

theorem IsLine.of_infix {line part : Bytes} (h : IsLine line) (hpart : part <:+: line) :
    IsLine part := fun hcrlf => h (hcrlf.trans hpart)

/-- The value has no byte but spaces. -/
def Blank (value : Bytes) : Prop := ∀ b ∈ value, b = 32

/-- What holds of a header that was read. -/
structure HTTPHeader.Parsed (header : HTTPHeader) : Prop where
  key_colon : 58 ∉ header.key
  key_line : IsLine header.key
  value_line : IsLine header.value
  value_head : Blank header.value ∨ header.value.head? ≠ some 32

/-- The header that `str` of the header is read as. -/
def HTTPHeader.reprinted (header : HTTPHeader) : HTTPHeader :=
  { header with value := fieldValue (32 :: header.value) }

namespace HTTPHeader

variable {header : HTTPHeader} {line : Bytes}

theorem ofLine_parsed (hline : IsLine line) (h : ofLine line = .ok header) : header.Parsed := by
  unfold ofLine at h
  split at h
  · cases h
  next i hi =>
    cases h
    rw [ascii_colon] at hi
    have hvalue : line.drop (i + 1) <:+: line := (List.drop_suffix _ _).isInfix
    refine ⟨fun hcolon => ?_, hline.of_infix (List.take_prefix _ _).isInfix, ?_, ?_⟩
    · exact not_infix_take (List.cons_ne_nil _ _) hi ((List.singleton_infix_iff _ _).mpr hcolon)
    · dsimp only
      split
      · exact hline.of_infix hvalue
      · exact hline.of_infix ((List.dropWhile_suffix _).isInfix.trans hvalue)
    · dsimp only
      split
      next hempty =>
        refine .inl fun b hb => ?_
        exact eq_of_beq (List.dropWhile_eq_nil_iff.mp (List.isEmpty_iff.mp hempty) b hb)
      next hne =>
        refine .inr fun hhead => ?_
        have hnot := List.head?_dropWhile_not (· == 32) (line.drop (i + 1))
        rw [hhead] at hnot
        exact Bool.noConfusion hnot

/-- The line that the header is printed as. -/
def Parsed.field (h : header.Parsed) : Field where
  name := header.key
  text := 32 :: header.value
  name_colon := h.key_colon
  isLine hcrlf := by
    rcases infix_of_append_cons (by decide) hcrlf with hkey | hvalue
    · exact h.key_line hkey
    · rcases infix_of_append_cons (l := []) (by decide) hvalue with hnil | hvalue
      · exact absurd hnil (by decide)
      · exact h.value_line hvalue

theorem str_eq : header.str = header.key ++ 58 :: 32 :: header.value := by
  have hseparator : ascii ": " = [58, 32] := by decide +kernel
  rw [str, hseparator, List.append_assoc]
  rfl

theorem fields_of_parsed {headers : List HTTPHeader} (h : ∀ header ∈ headers, header.Parsed) :
    ∃ fields : List Field, fields.map Field.line = headers.map str ∧
      fields.map Field.header = headers.map reprinted := by
  induction headers with
  | nil => exact ⟨[], rfl, rfl⟩
  | cons header headers ih =>
      obtain ⟨hheader, hheaders⟩ := List.forall_mem_cons.mp h
      obtain ⟨fields, hlines, hfields⟩ := ih hheaders
      refine ⟨hheader.field :: fields, ?_, ?_⟩
      · rw [List.map_cons, List.map_cons, hlines, str_eq]
        rfl
      · rw [List.map_cons, List.map_cons, hfields]
        rfl

theorem reprinted_eq_iff (h : header.Parsed) : header.reprinted = header ↔ ¬ Blank header.value := by
  have hvalue : header.reprinted = header ↔ fieldValue (32 :: header.value) = header.value := by
    rw [reprinted]
    cases header
    simp
  rw [hvalue, fieldValue, List.dropWhile_cons_of_pos rfl]
  by_cases hblank : Blank header.value
  · have hempty : (header.value.dropWhile (· == 32)).isEmpty = true :=
      List.isEmpty_iff.mpr (List.dropWhile_eq_nil_iff.mpr fun b hb => beq_iff_eq.mpr (hblank b hb))
    rw [if_pos hempty]
    exact iff_of_false (List.cons_ne_self _ _) (not_not.mpr hblank)
  · have hsame : header.value.dropWhile (· == 32) = header.value := by
      cases hvalue : header.value with
      | nil => rfl
      | cons b value =>
          refine List.dropWhile_cons_of_neg fun hb => ?_
          refine (h.value_head.resolve_left hblank) ?_
          rw [hvalue, eq_of_beq hb]
          rfl
    have hne : ¬ header.value.isEmpty = true := fun hempty => hblank fun b hb => by
      rw [List.isEmpty_iff.mp hempty] at hb
      cases hb
    rw [hsame, if_neg hne]
    exact iff_of_true rfl hblank

end HTTPHeader

/-! ### Requests -/

/-- An integer has a digit. -/
theorem not_blank_of_readInteger {value : Bytes} {size : Int}
    (h : readInteger 10 value = .ok size) : ¬ Blank value := by
  unfold readInteger at h
  split at h
  next v hv =>
    obtain ⟨⟨d, rfl, -⟩, -, -⟩ := myatoi_ok_iff.mp hv
    obtain ⟨b, digits, hdigits⟩ := List.exists_cons_of_ne_nil d.digits_ne
    have hb : b ∈ d.digits := hdigits ▸ List.mem_cons_self
    intro hblank
    have hspace : b = 32 := hblank b (List.mem_append_right _ hb)
    have hdigit := d.digits_digit b hb
    rw [hspace] at hdigit
    exact absurd hdigit (by decide)
  · cases h

namespace HTTPRequest

variable {m : HTTPRequest} {firstLine : Bytes} {headers : List HTTPHeader} {n : Nat}

/-- A request whose headers have been read. -/
def headed (firstLine : Bytes) (headers : List HTTPHeader) : HTTPRequest :=
  { firstLine, headers, state := .bodyPending, members := {} }

/-- How long the body is. -/
inductive BodySize (firstLine : Bytes) (headers : List HTTPHeader) : Nat → Prop where
  | empty (h : firstLine.take 4 = ascii "GET " ∨ firstLine.take 5 = ascii "HEAD ") :
      BodySize firstLine headers 0
  | post {value : Bytes} {size : Int}
      (h : ¬ (firstLine.take 4 = ascii "GET " ∨ firstLine.take 5 = ascii "HEAD "))
      (hpost : firstLine.take 5 = ascii "POST ")
      (hvalue : headerValue (ascii "Content-Length") headers = some value)
      (hsize : readInteger 10 value = .ok size) : BodySize firstLine headers (toU64 size)

theorem calculate_ok_iff : (headed firstLine headers).calculateExpectedBodySize = .ok m ↔
    ∃ n, BodySize firstLine headers n ∧
      m = { headed firstLine headers with expectedBodySize := (true, n) } := by
  have hline : (headed firstLine headers).firstLine = firstLine := rfl
  have hheaders : (headed firstLine headers).headers = headers := rfl
  have hset : ∀ k, (headed firstLine headers).setExpectedBodySize true k =
      .ok { headed firstLine headers with expectedBodySize := (true, k) } := fun _ => rfl
  have hstate : (headed firstLine headers).state = .bodyPending := rfl
  rw [calculateExpectedBodySize, assert_pos hstate, ok_bind, hline, HTTPMessage.hasHeader_eq,
    hheaders]
  constructor
  · intro h
    split at h
    next hget =>
      rw [hset] at h
      cases h
      exact ⟨0, .empty hget, rfl⟩
    next hget =>
      split at h
      next hpost =>
        split at h
        next hhas =>
          obtain ⟨value, hvalue⟩ := Option.isSome_iff_exists.mp hhas
          rw [HTTPMessage.getHeaderValue_eq (m := headed firstLine headers) hvalue, ok_bind] at h
          obtain ⟨size, hsize, h⟩ := bind_ok.mp h
          rw [hset] at h
          cases h
          exact ⟨_, .post hget hpost hvalue hsize, rfl⟩
        · cases h
      · cases h
  · rintro ⟨n, hn, rfl⟩
    cases hn with
    | empty hget => rw [if_pos hget, hset]
    | post hget hpost hvalue hsize =>
        rw [if_neg hget, if_pos hpost, hvalue, Option.isSome_some, if_pos rfl,
          HTTPMessage.getHeaderValue_eq (m := headed firstLine headers) hvalue, ok_bind, hsize,
          ok_bind, hset]

/-- The body is as long when the headers are printed and read again. -/
theorem BodySize.reprinted (h : BodySize firstLine headers n)
    (hparsed : ∀ header ∈ headers, header.Parsed) :
    BodySize firstLine (headers.map HTTPHeader.reprinted) n := by
  cases h with
  | empty h => exact .empty h
  | post h hpost hvalue hsize =>
      refine .post h hpost ?_ hsize
      obtain ⟨header, hheader, rfl⟩ := Option.map_eq_some_iff.mp hvalue
      -- a value that is an integer is not blank, so it is printed as it was read
      have hsame := (HTTPHeader.reprinted_eq_iff
        (hparsed _ (List.mem_of_find?_eq_some hheader))).mpr (not_blank_of_readInteger hsize)
      have hkeys : (fun header : HTTPHeader => equivalentStrings header.key
          (ascii "Content-Length")) ∘ HTTPHeader.reprinted = fun header =>
            equivalentStrings header.key (ascii "Content-Length") := rfl
      rw [headerValue, List.find?_map, hkeys, hheader, Option.map_some, Option.map_some, hsame]

/-! ### What holds of a request that was read -/

/-- The head of the request. -/
structure Headed (m : HTTPRequest) : Prop where
  line : IsLine m.firstLine
  headers : ∀ header ∈ m.headers, header.Parsed

/-- A complete request. -/
structure Parsed (m : HTTPRequest) : Prop extends Headed m where
  state : m.state = .complete
  size : BodySize m.firstLine m.headers m.body.length

/-- What holds of the request in progress. -/
def Kept (m : HTTPRequest) : Prop :=
  match m.state with
  | .firstLinePending => m = HTTPMessage.new
  | .headersPending => Headed m ∧
      m = { firstLine := m.firstLine, headers := m.headers, state := .headersPending, members := {} }
  | .bodyPending => Headed m ∧ ∃ n, m.expectedBodySize = (true, n) ∧
      BodySize m.firstLine m.headers n ∧ m.body.length ≤ n
  | .complete => Parsed m

end HTTPRequest

namespace HTTPRequestParser

variable {q : HTTPRequestParser}

structure Kept (q : HTTPRequestParser) : Prop where
  message : HTTPRequest.Kept q.messageInProgress
  completes : ∀ m ∈ q.completeMessages, HTTPRequest.Parsed m

theorem readInBody_kept {m : HTTPRequest} (str : Bytes) (hstate : m.state = .bodyPending)
    (h : HTTPRequest.Kept m) :
    Ensures (fun _ => True) (fun r => HTTPRequest.Kept r.2) (m.readInBody str) := by
  rw [HTTPRequest.Kept, hstate] at h
  obtain ⟨hheaded, n, hsize, hn, hle⟩ := h
  have hknown : m.expectedBodySize.1 = true := by rw [hsize]
  rw [HTTPMessage.readInBody_known hstate hknown]
  split
  · show HTTPRequest.Kept (m.grow str)
    by_cases hfull : m.expectedBodySize.2 ≤ m.body.length + str.length
    · have hstate' : (m.grow str).state = .complete := if_pos hfull
      have hlength : (m.grow str).body.length = n := by
        rw [hsize] at hfull
        rw [HTTPMessage.grow, hsize, List.length_append, List.length_take]
        dsimp only at hfull ⊢
        omega
      rw [HTTPRequest.Kept, hstate']
      exact ⟨⟨hheaded.line, hheaded.headers⟩, hstate', hlength.symm ▸ hn⟩
    · have hlt := Nat.not_le.mp hfull
      rw [HTTPMessage.grow_of_lt hlt, HTTPRequest.Kept, hstate]
      refine ⟨⟨hheaded.line, hheaded.headers⟩, n, hsize, hn, ?_⟩
      rw [hsize] at hlt
      rw [List.length_append]
      exact hlt.le
  · exact trivial

theorem headerLine_kept {m : HTTPRequest} {line : Bytes} (hstate : m.state = .headersPending)
    (hline : IsLine line) (h : HTTPRequest.Kept m) :
    Ensures (fun _ => True) HTTPRequest.Kept (headerLine line m) := by
  rw [HTTPRequest.Kept, hstate] at h
  obtain ⟨hheaded, hm⟩ := h
  unfold headerLine
  split
  · rw [HTTPMessage.doneWithHeaders, assert_pos hstate, ok_bind, hm]
    show Ensures _ _ (HTTPRequest.headed m.firstLine m.headers).calculateExpectedBodySize
    refine ensures_iff.mpr fun m' hm' => ?_
    obtain ⟨n, hn, rfl⟩ := HTTPRequest.calculate_ok_iff.mp hm'
    exact ⟨⟨hheaded.line, hheaded.headers⟩, n, rfl, hn, Nat.zero_le n⟩
  · rw [HTTPMessage.addHeader, assert_pos hstate, ok_bind]
    refine Ensures.bind (P := HTTPHeader.Parsed)
      (ensures_iff.mpr fun _ => HTTPHeader.ofLine_parsed hline) fun header hheader => ?_
    show HTTPRequest.Kept _
    rw [HTTPRequest.Kept, hstate, hm]
    refine ⟨⟨hheaded.line, fun header' hmem => ?_⟩, rfl⟩
    rcases List.mem_append.mp hmem with hmem | hmem
    · exact hheaded.headers header' hmem
    · exact List.mem_singleton.mp hmem ▸ hheader

theorem parsingStep_kept (h : Kept q) :
    Ensures (fun _ => True) (Next.Satisfies Kept Kept) (parsingStep q) := by
  have hmessage := h.message
  cases hstate : q.messageInProgress.state with
  | firstLinePending =>
      rw [HTTPRequest.Kept, hstate] at hmessage
      rw [parsingStep_firstLine hstate]
      cases hline : find CRLF q.buffer with
      | none => exact h
      | some i =>
          have hisLine : IsLine (q.buffer.take i) := not_infix_take (by decide) hline
          have hbegin : q.beginMessage (q.buffer.take i) = .ok (q.members,
              { firstLine := q.buffer.take i, state := .headersPending, members := {} }) := by
            rw [beginMessage, hmessage]
            rfl
          dsimp only
          rw [hbegin]
          exact ⟨⟨⟨hisLine, fun _ hm => (nomatch hm)⟩, rfl⟩, h.completes⟩
  | headersPending =>
      rw [parsingStep_headers hstate]
      cases hline : find CRLF q.buffer with
      | none => exact h
      | some i =>
          have hisLine : IsLine (q.buffer.take i) := not_infix_take (by decide) hline
          exact Ensures.map ((headerLine_kept hstate hisLine hmessage).mono fun m hm =>
            ⟨hm, h.completes⟩)
  | bodyPending =>
      refine ensures_iff.mpr fun next hnext => ?_
      obtain ⟨r, hr, -, ⟨-, rfl⟩ | ⟨-, -, rfl⟩⟩ := parsingStep_body_ok hstate hnext
      · exact ⟨(readInBody_kept _ hstate hmessage).of_ok hr, h.completes⟩
      · exact ⟨(readInBody_kept _ hstate hmessage).of_ok hr, h.completes⟩
  | complete =>
      rw [HTTPRequest.Kept, hstate] at hmessage
      rw [parsingStep_complete hstate]
      refine ⟨rfl, fun m hm => ?_⟩
      rcases List.mem_append.mp hm with hm | hm
      · exact h.completes m hm
      · exact List.mem_singleton.mp hm ▸ hmessage

theorem parse_kept (buf : Bytes) (h : Kept q) :
    Ensures (fun e => ∀ m ∈ e.2, HTTPRequest.Parsed m) Kept (parse buf q) := by
  have hrun : ∀ q, Kept q → Ensures (fun e => ∀ m ∈ e.2, HTTPRequest.Parsed m) Kept
      (parsing.run q) := fun q hq =>
    Loop.ensures_run (P := Kept) (fun t _ ht => Ensures.mapError
      ((parsingStep_kept ht).mono_error fun _ _ => ht.completes)) hq
  refine Ensures.bind (P := HTTPRequest.Kept) (Ensures.mapError ?_) fun m hm =>
    hrun _ ⟨hm, h.completes⟩
  split
  · cases hstate : q.messageInProgress.state <;> rw [HTTPMessage.eof, hstate]
    · exact h.message
    · exact h.completes
    · exact h.completes
    · exact h.completes
  · exact h.message

/-- **What a parser completes** has been read line by line. -/
theorem completed_parsed (calls : List Bytes) :
    ∀ m ∈ completed (run parse calls HTTPRequestParser.new), HTTPRequest.Parsed m := by
  have hnew : Kept HTTPRequestParser.new := ⟨rfl, fun _ hm => (nomatch hm)⟩
  have hrun : Ensures (fun e => ∀ m ∈ e.2, HTTPRequest.Parsed m) Kept
      (run parse calls HTTPRequestParser.new) :=
    ensures_run (P := fun _ => Kept) hnew fun _ _ buf hkept _ _ => parse_kept buf hkept
  cases hresult : run parse calls HTTPRequestParser.new with
  | error e => exact hrun.of_error hresult
  | ok q => exact (hrun.of_ok hresult).completes

/-! ### What is printed is read -/

/-- The parser between two requests. -/
def resting (completeMessages : List HTTPRequest) : HTTPRequestParser :=
  { messageInProgress := HTTPMessage.new, members := {}, completeMessages }

theorem atRest_resting {completeMessages : List HTTPRequest} : (resting completeMessages).AtRest :=
  ⟨rfl, rfl⟩

/-- The request with its headers as they are printed and read again. -/
def reprinted (m : HTTPRequest) : Record :=
  { m.record with headers := m.headers.map HTTPHeader.reprinted }

variable {m : HTTPRequest}

theorem leads_request (cs : List HTTPRequest) (rest : Bytes) (h : HTTPRequest.Parsed m) :
    ∃ m' : HTTPRequest, m'.record = reprinted m ∧
      Leads cuttable ((resting cs).append (m.text ++ rest))
        ((resting (cs ++ [m'])).append rest) := by
  obtain ⟨fields, hlines, hfields⟩ := HTTPHeader.fields_of_parsed h.headers
  let head : Head := { firstLine := m.firstLine, fields, isLine := h.line }
  have htext : m.text ++ rest = head.text ++ (m.body ++ rest) := by
    have hflat : fields.flatMap (fun f => f.line ++ CRLF) =
        m.headers.flatMap fun header => header.str ++ CRLF := by
      have hmap := congrArg (List.flatMap (· ++ CRLF)) hlines
      rwa [List.flatMap_map, List.flatMap_map] at hmap
    rw [HTTPMessage.text, Head.text, hflat]
    simp only [List.append_assoc]
    rfl
  have hsize := HTTPRequest.calculate_ok_iff.mpr ⟨_, h.size.reprinted h.headers, rfl⟩
  let pending : HTTPRequest :=
    { firstLine := m.firstLine, state := .headersPending, members := {} }
  have hdone : HTTPMessage.doneWithHeaders { pending with headers := [] ++ head.headers } =
      .ok { HTTPRequest.headed m.firstLine (m.headers.map HTTPHeader.reprinted) with
        expectedBodySize := (true, m.body.length) } := by
    rw [HTTPMessage.doneWithHeaders, assert_pos rfl, ok_bind, List.nil_append, Head.headers,
      hfields]
    exact hsize
  have hhead := leads_head (C := cuttable) head (q := (resting cs).append (m.text ++ rest))
    (m := pending) rfl htext rfl rfl hdone
  refine ⟨{ HTTPRequest.headed m.firstLine (m.headers.map HTTPHeader.reprinted) with
    expectedBodySize := (true, m.body.length), body := m.body, state := .complete }, rfl, ?_⟩
  exact hhead.trans ((leads_known rfl rfl rfl rfl).trans (leads_complete rfl))

/-- **What printed requests are read as.** -/
theorem leads_requests (ms : List HTTPRequest) (h : ∀ m ∈ ms, HTTPRequest.Parsed m) :
    ∀ cs : List HTTPRequest, ∃ ms' : List HTTPRequest,
      ms'.map HTTPMessage.record = ms.map reprinted ∧
      Leads cuttable ((resting cs).append (ms.map HTTPMessage.text).flatten)
        (resting (cs ++ ms')) := by
  induction ms with
  | nil =>
      intro cs
      refine ⟨[], rfl, ?_⟩
      rw [List.append_nil]
      exact .refl (resting cs)
  | cons m ms ih =>
      intro cs
      obtain ⟨hm, hms⟩ := List.forall_mem_cons.mp h
      obtain ⟨m', hm', hfirst⟩ := leads_request cs (ms.map HTTPMessage.text).flatten hm
      obtain ⟨ms', hms', hrest⟩ := ih hms (cs ++ [m'])
      refine ⟨m' :: ms', by rw [List.map_cons, List.map_cons, hm', hms'], ?_⟩
      rw [List.map_cons, List.flatten_cons, List.append_cons]
      exact hfirst.trans hrest

theorem reprinted_eq_iff (h : HTTPRequest.Parsed m) :
    reprinted m = m.record ↔ ∀ header ∈ m.headers, ¬ Blank header.value := by
  have hheaders : reprinted m = m.record ↔ m.headers.map HTTPHeader.reprinted = m.headers.map id := by
    rw [List.map_id, reprinted, HTTPMessage.record]
    simp
  rw [hheaders, List.map_inj_left]
  exact forall₂_congr fun header hheader =>
    HTTPHeader.reprinted_eq_iff (h.headers header hheader)

end HTTPRequestParser

/-- **When requests are printed as they were read.**  What a parser has completed can be printed,
and read again in any pieces, with nothing left over; it is the same requests exactly when no
header's value is blank. -/
theorem reprint_iff (calls : List Bytes) :
    ∃ strs, (completed (run parse calls HTTPRequestParser.new)).mapM HTTPMessage.str = .ok strs ∧
      ∀ pieces, Cut strs.flatten pieces →
        ((∃ ms : List HTTPRequest,
            run parse pieces HTTPRequestParser.new = .ok (HTTPRequestParser.resting ms) ∧
            ms.map HTTPMessage.record =
              (completed (run parse calls HTTPRequestParser.new)).map HTTPMessage.record) ↔
          ∀ m ∈ completed (run parse calls HTTPRequestParser.new), ∀ header ∈ m.headers,
            ¬ Blank header.value) := by
  have hparsed := HTTPRequestParser.completed_parsed calls
  generalize completed (run parse calls HTTPRequestParser.new) = read at hparsed
  refine ⟨read.map HTTPMessage.text, mapM_ok fun m hm => HTTPMessage.str_eq (hparsed m hm).state,
    fun pieces hcut => ?_⟩
  obtain ⟨ms, hms, hleads⟩ := HTTPRequestParser.leads_requests read hparsed []
  have hrun : run parse pieces HTTPRequestParser.new = .ok (HTTPRequestParser.resting ms) :=
    hleads.run_pieces HTTPRequestParser.atRest_resting HTTPRequestParser.atRest_resting hcut
  have hsame : (∃ ms' : List HTTPRequest,
      run parse pieces HTTPRequestParser.new = .ok (HTTPRequestParser.resting ms') ∧
      ms'.map HTTPMessage.record = read.map HTTPMessage.record) ↔
      read.map HTTPRequestParser.reprinted = read.map HTTPMessage.record := by
    rw [hrun]
    constructor
    · rintro ⟨ms', hms', hrecords⟩
      cases hms'
      exact hms.symm.trans hrecords
    · exact fun hrecords => ⟨ms, rfl, hms.trans hrecords⟩
  rw [hsame, List.map_inj_left]
  exact forall₂_congr fun m hm => HTTPRequestParser.reprinted_eq_iff (hparsed m hm)

def hostRequest : Bytes := ascii "GET / HTTP/1.1\r\nHost: a\r\n\r\n"

/-- A request with a value that is not blank. -/
theorem reprint_iff_host :
    ∃ ms : List HTTPRequest,
      run parse [hostRequest] HTTPRequestParser.new = .ok (HTTPRequestParser.resting ms) ∧
      ms.map HTTPMessage.record =
        (completed (run parse [hostRequest] HTTPRequestParser.new)).map HTTPMessage.record := by
  obtain ⟨strs, hstrs, hread⟩ := reprint_iff [hostRequest]
  have hprinted : (completed (run parse [hostRequest] HTTPRequestParser.new)).mapM
      HTTPMessage.str = .ok [hostRequest] := by decide +kernel
  cases hprinted.symm.trans hstrs
  exact (hread [hostRequest] ⟨rfl, by decide +kernel⟩).mpr (by unfold Blank; decide +kernel)

/-- A blank value is printed with one more space. -/
theorem blank_value_grows :
    (completed (run parse [ascii "GET / HTTP/1.1\r\nX:\r\n\r\n"] HTTPRequestParser.new)).mapM
        HTTPMessage.str = .ok [ascii "GET / HTTP/1.1\r\nX: \r\n\r\n"] ∧
      (completed (run parse [ascii "GET / HTTP/1.1\r\nX: \r\n\r\n"]
        HTTPRequestParser.new)).map HTTPMessage.record ≠
      (completed (run parse [ascii "GET / HTTP/1.1\r\nX:\r\n\r\n"]
        HTTPRequestParser.new)).map HTTPMessage.record := by
  decide +kernel

end Mahimahi
