import Mahimahi.Http.Segmentation

/-!
# Http — assertions of the parsers

`Guarded D P` is what messages of type `D` have to satisfy so that the assertions of a parser hold.
`Guards` is the invariant of a parser, and `Waits` says that it has asked for more.

* `parsingStep_ensures`: a step keeps both, and fails an assertion only in a body of unknown size.
* `parse_ensures`: so does a piece of a stream, and an end of file.
-/

open Fallible

namespace Mahimahi

open Search Loops

def IsException (e : HTTPError) : Prop := e ≠ .assertion

theorem IsException.elim {e : HTTPError} {p : Prop} (h : IsException e) : e = .assertion → p :=
  fun he => absurd he h

/-- The messages of a type keep the assertions.  `Source` is about the members of a parser, `Headed`
about those of a message that has its first line, and `Bodied` while its body is read. -/
structure Guarded (D P : Type) [MessageType D] [SequenceType D P] where
  Source : P → Prop
  Headed : D → Prop
  Bodied : D → Prop
  start : ∀ {p : P}, Source p → Ensures IsException
    (fun r => Source r.1 ∧ r.2.state = .firstLinePending ∧ r.2.body = [] ∧ Headed r.2.members)
    (SequenceType.initializeNewMessage p (HTTPMessage.new : HTTPMessage D))
  calculate : ∀ {m : HTTPMessage D}, m.state = .bodyPending → m.body = [] → Headed m.members →
    Ensures IsException (fun m' => m'.state = .bodyPending ∧ m'.body = [] ∧ Headed m'.members ∧
        (m'.expectedBodySize.1 = false → Bodied m'.members))
      (MessageType.calculateExpectedBodySize m)
  read : ∀ {m : HTTPMessage D} (str : Bytes), m.state = .bodyPending → Headed m.members →
    Bodied m.members → Ensures (fun _ => True) (fun r => r.1 ≤ str.length ∧ Headed r.2.members ∧
        (r.2.state = .complete ∨ (r.1 = str.length ∧ r.2.state = .bodyPending ∧
          r.2.expectedBodySize = m.expectedBodySize ∧ Bodied r.2.members)))
      (MessageType.readInComplexBody str m)
  eof : ∀ m : HTTPMessage D, Ensures IsException (· = true) (MessageType.eofInBody m)

namespace HTTPMessageSequence

variable {D P : Type} [MessageType D] [SequenceType D P] (G : Guarded D P)
variable {q : HTTPMessageSequence D P} {m : HTTPMessage D} {str : Bytes}

/-- What holds of the message in progress. -/
def Sound (m : HTTPMessage D) : Prop :=
  match m.state with
  | .firstLinePending => m = HTTPMessage.new
  | .headersPending => m.body = [] ∧ G.Headed m.members
  | .bodyPending => G.Headed m.members ∧ (m.expectedBodySize.1 = true →
      m.body.length ≤ m.expectedBodySize.2) ∧ (m.expectedBodySize.1 = false → G.Bodied m.members)
  | .complete => G.Headed m.members

structure Guards (q : HTTPMessageSequence D P) : Prop where
  source : G.Source q.members
  sound : Sound G q.messageInProgress
  completes : ∀ m ∈ q.completeMessages, m.state = .complete ∧ G.Headed m.members

/-- `readInComplexBody` fails an assertion: nothing else does. -/
def Fails (q : HTTPMessageSequence D P) : Prop :=
  q.messageInProgress.state = .bodyPending ∧ q.messageInProgress.expectedBodySize.1 = false ∧
    MessageType.readInComplexBody q.buffer q.messageInProgress = .error .assertion

theorem Guards.append (h : Guards G q) (str : Bytes) : Guards G (q.append str) :=
  ⟨h.source, h.sound, h.completes⟩

omit [MessageType D] [SequenceType D P] in
/-- Waiting is about the message and the buffer only. -/
theorem Waits.of_eq {q' : HTTPMessageSequence D P} (h : q.Waits)
    (hmessage : q'.messageInProgress = q.messageInProgress) (hbuffer : q'.buffer = q.buffer) :
    q'.Waits := by
  refine ⟨?_, ?_, ?_⟩
  · rw [hmessage]; exact h.complete
  · rw [hmessage, hbuffer]; exact h.body
  · rw [hmessage, hbuffer]; exact h.line

theorem beginMessage_ensures (hsource : G.Source q.members)
    (hnew : q.messageInProgress = HTTPMessage.new) (line : Bytes) :
    Ensures IsException (fun r => G.Source r.1 ∧ Sound G r.2) (q.beginMessage line) := by
  rw [beginMessage, hnew]
  refine (G.start hsource).bind fun r hr => ?_
  obtain ⟨hsource', hstate, hbody, hheaded⟩ := hr
  dsimp only
  rw [HTTPMessage.setFirstLine, assert_pos hstate]
  exact ⟨hsource', hbody, hheaded⟩

theorem headerLine_ensures (hstate : m.state = .headersPending) (hsound : Sound G m)
    (line : Bytes) : Ensures IsException (Sound G) (headerLine line m) := by
  rw [Sound, hstate] at hsound
  obtain ⟨hbody, hheaded⟩ := hsound
  unfold headerLine
  split
  · rw [HTTPMessage.doneWithHeaders, assert_pos hstate, ok_bind]
    have hcalculate := G.calculate (m := { m with state := .bodyPending }) rfl hbody hheaded
    refine hcalculate.mono fun m' hm' => ?_
    obtain ⟨hstate', hbody', hheaded', hbodied⟩ := hm'
    rw [Sound, hstate', hbody']
    exact ⟨hheaded', fun _ => Nat.zero_le _, hbodied⟩
  · rw [HTTPMessage.addHeader, assert_pos hstate, ok_bind]
    unfold HTTPHeader.ofLine
    split
    · exact fun h => nomatch h
    · show Sound G _
      rw [Sound, hstate]
      exact ⟨hbody, hheaded⟩

theorem readInBody_ensures (hstate : m.state = .bodyPending) (hsound : Sound G m) :
    Ensures (fun e => e = .assertion → m.expectedBodySize.1 = false ∧
        MessageType.readInComplexBody str m = .error .assertion)
      (fun r => r.1 ≤ str.length ∧ Sound G r.2 ∧
        (r.2.state = .complete ∨ (r.1 = str.length ∧ r.2.state = .bodyPending)))
      (m.readInBody str) := by
  rw [Sound, hstate] at hsound
  obtain ⟨hheaded, hknown, hunknown⟩ := hsound
  cases hsize : m.expectedBodySize.1 with
  | true =>
      have hle := hknown hsize
      rw [HTTPMessage.readInBody_known hstate hsize, if_pos hle]
      refine ⟨Nat.min_le_right _ _, ?_⟩
      by_cases hfull : m.expectedBodySize.2 ≤ m.body.length + str.length
      · have hstate' : (m.grow str).state = .complete := if_pos hfull
        exact ⟨by rw [Sound, hstate']; exact hheaded, .inl hstate'⟩
      · have hlt := Nat.not_le.mp hfull
        have hgrow := HTTPMessage.grow_of_lt hlt
        have hstate' : (m.grow str).state = .bodyPending := by rw [hgrow, hstate]
        refine ⟨?_, .inr ⟨Nat.min_eq_right (by omega), hstate'⟩⟩
        rw [Sound, hstate', hgrow]
        refine ⟨hheaded, fun _ => ?_, fun h => by rw [hsize] at h; cases h⟩
        rw [List.length_append]
        exact hlt.le
  | false =>
      rw [HTTPMessage.readInBody_unknown hstate hsize]
      cases hread : MessageType.readInComplexBody str m with
      | error e => rintro rfl; exact ⟨rfl, rfl⟩
      | ok r =>
          obtain ⟨hle, hheaded', hend⟩ :=
            (G.read str hstate hheaded (hunknown hsize)).of_ok hread
          refine ⟨hle, ?_, hend.imp_right fun h => ⟨h.1, h.2.1⟩⟩
          rcases hend with hc | ⟨-, hstate', hsize', hbodied⟩
          · rw [Sound, hc]
            exact hheaded'
          · rw [Sound, hstate', hsize', hsize]
            exact ⟨hheaded', fun h => (nomatch h), fun _ => hbodied⟩

theorem parsingStep_ensures (h : Guards G q) : Ensures (fun e => e = .assertion → q.Fails)
    (Next.Satisfies (Guards G) fun q' => Guards G q' ∧ q'.Waits) (parsingStep q) := by
  have hsound := h.sound
  cases hstate : q.messageInProgress.state with
  | firstLinePending =>
      rw [Sound, hstate] at hsound
      rw [parsingStep_firstLine hstate]
      cases hline : find CRLF q.buffer with
      | none =>
          refine ⟨h, ?_, ?_, fun _ => hline⟩
          · rw [hstate]; decide
          · rw [hstate]; exact fun hbody => nomatch hbody
      | some i =>
          have hbegin := (beginMessage_ensures G h.source hsound (q.buffer.take i)).mono_error
            (F := fun e => e = .assertion → q.Fails) fun _ => IsException.elim
          exact Ensures.map (hbegin.mono fun r hr => ⟨hr.1, hr.2, h.completes⟩)
  | headersPending =>
      rw [parsingStep_headers hstate]
      cases hline : find CRLF q.buffer with
      | none =>
          refine ⟨h, ?_, ?_, fun _ => hline⟩
          · rw [hstate]; decide
          · rw [hstate]; exact fun hbody => nomatch hbody
      | some i =>
          have hheader := (headerLine_ensures G hstate hsound (q.buffer.take i)).mono_error
            (F := fun e => e = .assertion → q.Fails) fun _ => IsException.elim
          exact Ensures.map (hheader.mono fun m hm => ⟨h.source, hm, h.completes⟩)
  | bodyPending =>
      rw [parsingStep_body hstate]
      refine ((readInBody_ensures G hstate hsound).mono_error fun e he heq =>
        ⟨hstate, he heq⟩).bind fun r hr => ?_
      obtain ⟨hle, hsound', hend⟩ := hr
      have hall : r.1 = q.buffer.length ∨ r.2.state = .complete := hend.symm.imp_left And.left
      rw [assert_pos hall, ok_bind, assert_pos hle, ok_bind]
      have hguards : Guards G (q.afterBody r) := ⟨h.source, hsound', h.completes⟩
      by_cases hc : r.2.state = .complete
      · rw [if_pos hc]
        exact hguards
      · rw [if_neg hc]
        obtain ⟨hlength, hstate'⟩ := hend.resolve_left hc
        refine ⟨hguards, hc, fun _ => ?_, fun hne => absurd hstate' hne⟩
        rw [afterBody, hlength, List.drop_length]
  | complete =>
      rw [parsingStep_complete hstate]
      rw [Sound, hstate] at hsound
      refine ⟨h.source, rfl, fun m hm => ?_⟩
      rcases List.mem_append.mp hm with hm | hm
      · exact h.completes m hm
      · rw [List.mem_singleton.mp hm]
        exact ⟨hstate, hsound⟩

theorem run_ensures (h : Guards G q) :
    Ensures (fun e => e.1 = .assertion → ∃ t, parsing.Reaches q t ∧ Guards G t ∧ t.Fails)
      (fun q' => Guards G q' ∧ q'.Waits) (parsing.run q) :=
  Loop.ensures_run (P := Guards G) (fun t ht hguards => Ensures.mapError
    ((parsingStep_ensures G hguards).mono_error fun _ he heq => ⟨t, ht, hguards, he heq⟩)) h

theorem reaches_guards {t : HTTPMessageSequence D P} (h : Guards G q)
    (ht : parsing.Reaches q t) : Guards G t :=
  ht.invariant (P := Guards G) (fun _ _ hguards hstep =>
    (parsingStep_ensures G hguards).of_ok (parsing_step_ok.mp hstep)) h

/-- A body that does fail stops the run. -/
theorem run_assertion {t : HTTPMessageSequence D P} (ht : parsing.Reaches q t) (hfails : t.Fails) :
    parsing.run q = .error (.assertion, t.completeMessages) := by
  obtain ⟨hstate, hknown, hread⟩ := hfails
  rw [ht.run_eq]
  refine Loop.run_error ?_
  rw [parsing_step, parsingStep_body hstate, HTTPMessage.readInBody_unknown hstate hknown, hread]
  rfl

/-- A complete message with nothing behind it leaves the parser with nothing to do. -/
theorem run_complete_ensures (h : Guards G q) (hstate : q.messageInProgress.state = .complete)
    (hbuffer : q.buffer = []) : Ensures (fun e => IsException e.1)
      (fun q' => Guards G q' ∧ q'.Waits) (parsing.run q) := by
  let q' : HTTPMessageSequence D P := { q with
    completeMessages := q.completeMessages ++ [q.messageInProgress]
    messageInProgress := HTTPMessage.new }
  have hline : find CRLF q'.buffer = none := by
    rw [show q'.buffer = [] from hbuffer]
    rfl
  have hstep : parsingStep q = .ok (.more q') := parsingStep_complete hstate
  have hguards : Guards G q' := (parsingStep_ensures G h).of_ok hstep
  have hstop : parsingStep q' = .ok (.stop q') := by
    rw [parsingStep_firstLine (q := q') rfl, hline]
  rw [Loop.run_more (parsing_step_ok.mpr hstep), Loop.run_stop (parsing_step_ok.mpr hstop)]
  exact ⟨hguards, fun hc => (nomatch hc), fun hc => (nomatch hc), fun _ => hline⟩

/-- An end of file keeps the assertions. -/
theorem eof_ensures (h : Guards G q) (hwaits : q.Waits) : Ensures (fun e => IsException e.1)
    (fun q' => Guards G q' ∧ q'.Waits) (parse [] q) := by
  have hsound := h.sound
  have hrest : ∀ q : HTTPMessageSequence D P, q.append [] = q := fun q => by
    rw [append, List.append_nil]
  rw [parse, List.isEmpty_nil, if_pos rfl, HTTPMessage.eof]
  cases hstate : q.messageInProgress.state with
  | firstLinePending =>
      have hstop : parsingStep q = .ok (.stop q) := by
        rw [parsingStep_firstLine hstate, hwaits.line (by rw [hstate]; decide)]
      dsimp only [Except.mapError, ok_bind]
      rw [hrest, Loop.run_stop (parsing_step_ok.mpr hstop)]
      exact ⟨h, hwaits⟩
  | headersPending => exact fun h => by cases h
  | bodyPending =>
      dsimp only
      cases heof : MessageType.eofInBody q.messageInProgress with
      | error e => exact (G.eof _).of_error heof
      | ok complete =>
          rw [(G.eof _).of_ok heof]
          rw [Sound, hstate] at hsound
          let q₀ : HTTPMessageSequence D P :=
            { q with messageInProgress := { q.messageInProgress with state := .complete } }
          show Ensures _ _ (parsing.run (append q₀ []))
          rw [hrest]
          exact run_complete_ensures G (q := q₀) ⟨h.source, hsound.1, h.completes⟩ rfl
            (hwaits.body hstate)
  | complete => exact absurd hstate hwaits.complete

/-- **What a piece keeps.**  An assertion fails in a body of unknown size, or not at all. -/
theorem parse_ensures (buf : Bytes) (h : Guards G q) (hwaits : q.Waits) :
    Ensures (fun e => e.1 = .assertion → buf ≠ [] ∧
        ∃ t, parsing.Reaches (q.append buf) t ∧ Guards G t ∧ t.Fails)
      (fun q' => Guards G q' ∧ q'.Waits) (parse buf q) := by
  by_cases hbuf : buf = []
  · rw [hbuf]
    exact (eof_ensures G h hwaits).mono_error fun _ => IsException.elim
  · rw [parse_eq hbuf, resume]
    exact (run_ensures G (h.append G buf)).mono_error fun _ he heq => ⟨hbuf, he heq⟩

end HTTPMessageSequence

end Mahimahi
