import Mahimahi.Http.Segmentation

/-!
# Http — messages on the wire

A `Field` is a header as it is sent, and a `Head` is the first line of a message with its fields.
`Leads C q t` says that a parser comes from `q` to `t` without a body that goes wrong, so that what
it reads on the way does not depend on how the stream is cut.

* `leads_head`: the head of a message, in front of anything else, is read as it was sent.
* `leads_known`: so is a body whose size is known.
* `Leads.run_pieces`: a stream that leads a parser to rest does so in any pieces.
-/

open Fallible

namespace Mahimahi

open Search Loops HTTPMessageSequence

/-- No CRLF stands in it. -/
def IsLine (line : Bytes) : Prop := ¬ CRLF <:+: line

instance (line : Bytes) : Decidable (IsLine line) := inferInstanceAs (Decidable (¬ _))

theorem IsLine.nil : IsLine [] := by decide

theorem ascii_colon : ascii ":" = [58] := by decide +kernel

theorem IsLine.find {line : Bytes} (h : IsLine line) (rest : Bytes) :
    find CRLF (line ++ (CRLF ++ rest)) = some line.length :=
  find_pair (by decide) h

theorem IsLine.find_end {line : Bytes} (h : IsLine line) :
    Search.find CRLF (line ++ CRLF) = some line.length := by
  have hfind := h.find []
  rwa [List.append_nil] at hfind

/-! ### Headers -/

/-- A header as it is sent: a name, a colon, and any text. -/
structure Field where
  name : Bytes
  text : Bytes
  name_colon : 58 ∉ name
  isLine : IsLine (name ++ 58 :: text)

/-- A text without the spaces in front of it, unless there is nothing else. -/
def fieldValue (text : Bytes) : Bytes :=
  if (text.dropWhile (· == 32)).isEmpty then text else text.dropWhile (· == 32)

namespace Field

def line (f : Field) : Bytes := f.name ++ 58 :: f.text

def header (f : Field) : HTTPHeader := { key := f.name, value := fieldValue f.text }

theorem line_ne (f : Field) : f.line ≠ [] := List.append_ne_nil_of_right_ne_nil _ (by simp)

theorem ofLine_eq (f : Field) : HTTPHeader.ofLine f.line = .ok f.header := by
  have hfind : find (ascii ":") f.line = some f.name.length :=
    ascii_colon ▸ find_singleton f.name_colon
  have htext : f.line.drop (f.name.length + 1) = f.text := by
    rw [line, List.drop_append, List.drop_of_length_le (Nat.le_succ _), Nat.add_sub_cancel_left]
    rfl
  rw [HTTPHeader.ofLine, hfind]
  dsimp only
  rw [htext, line, List.take_left]
  rfl

end Field

/-- What comes before the body. -/
structure Head where
  firstLine : Bytes
  fields : List Field
  isLine : IsLine firstLine

namespace Head

def text (h : Head) : Bytes :=
  h.firstLine ++ (CRLF ++ (h.fields.flatMap (fun f => f.line ++ CRLF) ++ CRLF))

def headers (h : Head) : List HTTPHeader := h.fields.map Field.header

end Head

/-! ### What a parser comes to -/

namespace HTTPMessageSequence

variable {D P : Type} [MessageType D] [SequenceType D P] {C : Cuttable D P}
variable {q t u : HTTPMessageSequence D P} {m m' : HTTPMessage D} {rest : Bytes}

/-- The loop comes from `q` to `t`, and no body that is read on the way goes wrong. -/
structure Leads (C : Cuttable D P) (q t : HTTPMessageSequence D P) : Prop where
  reaches : parsing.Reaches q t
  safe : SafeFrom C t → SafeFrom C q

theorem Leads.refl (q : HTTPMessageSequence D P) : Leads C q q := ⟨.refl q, id⟩

theorem Leads.trans (h : Leads C q t) (h' : Leads C t u) : Leads C q u :=
  ⟨h.reaches.trans h'.reaches, fun hsafe => h.safe (h'.safe hsafe)⟩

/-- One step, which does not read a body that goes wrong. -/
theorem Leads.step (h : parsingStep q = .ok (.more t))
    (hbody : q.messageInProgress.state = .bodyPending →
      q.messageInProgress.expectedBodySize.1 = false → C.Safe q.buffer q.messageInProgress) :
    Leads C q t where
  reaches := .more (parsing_step_ok.mpr h) (.refl t)
  safe hsafe u hu hstate hknown := by
    cases hu with
    | refl => exact hbody hstate hknown
    | more hstep hu =>
        cases h.symm.trans (parsing_step_ok.mp hstep)
        exact hsafe u hu hstate hknown

theorem take_line (line rest : Bytes) : (line ++ (CRLF ++ rest)).take line.length = line :=
  List.take_left

theorem drop_line (line rest : Bytes) : (line ++ (CRLF ++ rest)).drop (line.length + 2) = rest := by
  rw [← List.drop_drop, List.drop_left]
  rfl

theorem leads_firstLine {line : Bytes} {r : P × HTTPMessage D}
    (hstate : q.messageInProgress.state = .firstLinePending)
    (hbuffer : q.buffer = line ++ (CRLF ++ rest)) (hline : IsLine line)
    (hbegin : q.beginMessage line = .ok r) :
    Leads C q { q with members := r.1, buffer := rest, messageInProgress := r.2 } := by
  refine .step ?_ fun hbody => by rw [hstate] at hbody; cases hbody
  rw [parsingStep_firstLine hstate, hbuffer, hline.find]
  dsimp only
  rw [take_line, drop_line, hbegin]
  rfl

theorem leads_headerLine (line rest : Bytes)
    (hstate : q.messageInProgress.state = .headersPending)
    (hbuffer : q.buffer = line ++ (CRLF ++ rest)) (hline : IsLine line)
    (hheader : headerLine line q.messageInProgress = .ok m') :
    Leads C q { q with buffer := rest, messageInProgress := m' } := by
  refine .step ?_ fun hbody => by rw [hstate] at hbody; cases hbody
  rw [parsingStep_headers hstate, hbuffer, hline.find]
  dsimp only
  rw [take_line, drop_line, hheader]
  rfl

theorem leads_fields (fields : List Field) (rest : Bytes) :
    ∀ {q : HTTPMessageSequence D P}, q.messageInProgress.state = .headersPending →
      q.buffer = fields.flatMap (fun f => f.line ++ CRLF) ++ rest →
      Leads C q { q with
        buffer := rest
        messageInProgress := { q.messageInProgress with
          headers := q.messageInProgress.headers ++ fields.map Field.header } } := by
  induction fields with
  | nil =>
      intro q _ hbuffer
      have hsame : { q with
          buffer := rest
          messageInProgress := { q.messageInProgress with
            headers := q.messageInProgress.headers ++ List.map Field.header [] } } = q := by
        rw [List.map_nil, List.append_nil, show rest = q.buffer from hbuffer.symm]
      rw [hsame]
      exact .refl q
  | cons f fields ih =>
      intro q hstate hbuffer
      rw [List.flatMap_cons, List.append_assoc, List.append_assoc] at hbuffer
      have hadd : headerLine f.line q.messageInProgress = .ok { q.messageInProgress with
          headers := q.messageInProgress.headers ++ [f.header] } := by
        rw [headerLine, if_neg fun hempty => f.line_ne (List.isEmpty_iff.mp hempty),
          HTTPMessage.addHeader, assert_pos hstate, ok_bind, f.ofLine_eq]
        rfl
      have hline := leads_headerLine (C := C) _ _ hstate hbuffer f.isLine hadd
      have hrest := ih (q := { q with
        buffer := fields.flatMap (fun f => f.line ++ CRLF) ++ rest
        messageInProgress := { q.messageInProgress with
          headers := q.messageInProgress.headers ++ [f.header] } }) hstate rfl
      rw [List.append_assoc] at hrest
      exact hline.trans hrest

/-- **A head is read as it was sent.** -/
theorem leads_head (head : Head) {members : P}
    (hstate : q.messageInProgress.state = .firstLinePending)
    (hbuffer : q.buffer = head.text ++ rest)
    (hbegin : q.beginMessage head.firstLine = .ok (members, m)) (hpending : m.state = .headersPending)
    (hdone : { m with headers := m.headers ++ head.headers }.doneWithHeaders = .ok m') :
    Leads C q { q with members, buffer := rest, messageInProgress := m' } := by
  rw [Head.text, List.append_assoc, List.append_assoc, List.append_assoc] at hbuffer
  have hfirst := leads_firstLine (C := C) hstate hbuffer head.isLine hbegin
  have hfields := leads_fields (C := C) head.fields (CRLF ++ rest) (q := { q with
    members
    buffer := head.fields.flatMap (fun f => f.line ++ CRLF) ++ (CRLF ++ rest)
    messageInProgress := m }) hpending rfl
  have hblank := leads_headerLine (C := C) [] rest (q := { q with
    members
    buffer := CRLF ++ rest
    messageInProgress := { m with headers := m.headers ++ head.headers } }) hpending rfl
    (by decide) hdone
  exact hfirst.trans (hfields.trans hblank)

/-- A body whose size is known. -/
theorem leads_known {body : Bytes} (hstate : q.messageInProgress.state = .bodyPending)
    (hsize : q.messageInProgress.expectedBodySize = (true, body.length))
    (hempty : q.messageInProgress.body = []) (hbuffer : q.buffer = body ++ rest) :
    Leads C q { q with
      buffer := rest
      messageInProgress := { q.messageInProgress with body, state := .complete } } := by
  refine .step ?_ fun _ hknown => by rw [hsize] at hknown; cases hknown
  have htake : q.buffer.take
      (q.messageInProgress.expectedBodySize.2 - q.messageInProgress.body.length) = body := by
    rw [hsize, hempty, hbuffer]
    exact List.take_left
  have hfull : q.messageInProgress.expectedBodySize.2 ≤
      q.messageInProgress.body.length + q.buffer.length := by
    rw [hsize, hempty, hbuffer, List.length_append, List.length_nil]
    omega
  have hgrow : q.messageInProgress.grow q.buffer =
      { q.messageInProgress with body, state := .complete } := by
    rw [HTTPMessage.grow, htake, if_pos hfull, hempty, List.nil_append]
  have hread : q.messageInProgress.readInBody q.buffer =
      .ok (body.length, { q.messageInProgress with body, state := .complete }) := by
    rw [HTTPMessage.readInBody_known hstate (by rw [hsize]), hgrow, hsize, hempty, hbuffer,
      List.length_nil, if_pos (Nat.zero_le _), List.length_append]
    congr 2
    omega
  have hle : body.length ≤ q.buffer.length := by
    rw [hbuffer, List.length_append]
    omega
  rw [parsingStep_body hstate, hread, ok_bind, assert_pos (.inr rfl), ok_bind, assert_pos hle,
    ok_bind, if_pos rfl, afterBody, hbuffer, List.drop_left]
  rfl

/-- The parser is between two messages, with nothing in the buffer. -/
structure AtRest (q : HTTPMessageSequence D P) : Prop where
  buffer : q.buffer = []
  message : q.messageInProgress = HTTPMessage.new

theorem AtRest.waits (h : q.AtRest) : parsingStep q = .ok (.stop q) := by
  have hstate : q.messageInProgress.state = .firstLinePending := by
    rw [h.message]
    rfl
  rw [parsingStep_firstLine hstate, h.buffer]
  rfl

theorem AtRest.safe (h : q.AtRest) : SafeFrom C q := by
  intro u hu hstate
  have hend : ∀ s', parsing.step q ≠ .ok (.more s') := fun s' hs' => by
    cases h.waits.symm.trans (parsing_step_ok.mp hs')
  rw [hu.eq_of_end hend, h.message] at hstate
  cases hstate

/-- A stream that is read to its end is read the same way in pieces. -/
theorem Leads.run_pieces {s : Bytes} {pieces : List Bytes} (hq : q.AtRest)
    (h : Leads C (q.append s) t) (ht : t.AtRest) (hcut : Cut s pieces) :
    run parse pieces q = .ok t := by
  obtain ⟨rfl, hne⟩ := hcut
  have hgood : q.Good C.toKept := fun _ => by
    rw [hq.message]
    exact C.initial
  have hrest : resume [] q = .ok q := by
    rw [resume, append, List.append_nil]
    exact Loop.run_stop (parsing_step_ok.mpr hq.waits)
  have hread : resume pieces.flatten q = .ok t :=
    h.reaches.run_eq.trans (Loop.run_stop (parsing_step_ok.mpr ht.waits))
  have hfeed := feed_agrees C hne hgood hrest (h.safe ht.safe)
  rw [hread] at hfeed
  cases hrun : run parse pieces q with
  | error e =>
      rw [hrun] at hfeed
      exact hfeed.elim
  | ok q' =>
      rw [hrun] at hfeed
      exact congrArg Except.ok hfeed

theorem leads_complete (hstate : q.messageInProgress.state = .complete) : Leads C q { q with
    completeMessages := q.completeMessages ++ [q.messageInProgress]
    messageInProgress := HTTPMessage.new } :=
  .step (parsingStep_complete hstate) fun hbody => by rw [hstate] at hbody; cases hbody

end HTTPMessageSequence

end Mahimahi
