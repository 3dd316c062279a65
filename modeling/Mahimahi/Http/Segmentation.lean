import Mahimahi.Http.Sequence

/-!
# Http — a stream in pieces

`Cuttable D P` is what bodies of type `D` have to satisfy so that a stream may be cut anywhere: a
body that is complete ignores what follows, and one that is not can be read on later.

* `parsingStep_append`, `parsingStep_stop`, `parsingStep_error`: a step with more in the buffer goes
  on the same way, takes up where it stopped, or fails too.
* `resume_append`, `resume_error`: the same of a piece.
* `cuts_agree`: any two cuts of a stream end alike.
* `piecewise_cuts_agree`: for that it is enough that no body goes wrong within one piece.
-/

open Fallible

namespace Mahimahi

open Search Loops

/-- An invariant of the members, kept until the body is read. -/
structure Kept (D P : Type) [MessageType D] [SequenceType D P] where
  Inv : D → Prop
  initial : Inv MessageType.initial
  start : ∀ {p p' : P} {m m' : HTTPMessage D},
    SequenceType.initializeNewMessage p m = .ok (p', m') → Inv m.members → Inv m'.members
  calculate : ∀ {m m' : HTTPMessage D},
    MessageType.calculateExpectedBodySize m = .ok m' → Inv m.members → Inv m'.members

/-- The bodies of a type of messages can be read in pieces.  `Inv` is kept between two calls, and
`Safe str m` says that nothing goes wrong when `m` reads `str`. -/
structure Cuttable (D P : Type) [MessageType D] [SequenceType D P] extends Kept D P where
  Safe : Bytes → HTTPMessage D → Prop
  done : ∀ {b : Bytes} {n : Nat} {m m' : HTTPMessage D} (y : Bytes), Inv m.members →
    MessageType.readInComplexBody b m = .ok (n, m') → m'.state = .complete →
      MessageType.readInComplexBody (b ++ y) m = .ok (n, m')
  done_le : ∀ {b : Bytes} {n : Nat} {m m' : HTTPMessage D}, Inv m.members →
    MessageType.readInComplexBody b m = .ok (n, m') → m'.state = .complete → n ≤ b.length
  all : ∀ {b : Bytes} {n : Nat} {m m' : HTTPMessage D} (y : Bytes), Inv m.members →
    MessageType.readInComplexBody b m = .ok (n, m') → m'.state ≠ .complete →
      (n = b.length ∧ m'.state = .bodyPending ∧ m'.expectedBodySize = m.expectedBodySize ∧
        Inv m'.members) ∧
      MessageType.readInComplexBody (b ++ y) m =
        (MessageType.readInComplexBody y m').map fun r => (b.length + r.1, r.2)
  error : ∀ {b : Bytes} {e : HTTPError} {m : HTTPMessage D} (y : Bytes),
    MessageType.readInComplexBody b m = .error e → Safe (b ++ y) m →
      ∃ e', MessageType.readInComplexBody (b ++ y) m = .error e'
  safe : ∀ {b : Bytes} {n : Nat} {m m' : HTTPMessage D} (y : Bytes),
    MessageType.readInComplexBody b m = .ok (n, m') → m'.state ≠ .complete → Safe (b ++ y) m →
      Safe y m'

namespace HTTPMessage

variable {D : Type} {m : HTTPMessage D} {b : Bytes}

/-- A body of known size, after `b`. -/
def grow (b : Bytes) (m : HTTPMessage D) : HTTPMessage D :=
  { m with
    body := m.body ++ b.take (m.expectedBodySize.2 - m.body.length)
    state := if m.expectedBodySize.2 ≤ m.body.length + b.length then .complete else m.state }

theorem grow_append_of_le (y : Bytes) (h : m.expectedBodySize.2 - m.body.length ≤ b.length) :
    m.grow (b ++ y) = m.grow b := by
  have hfull : m.expectedBodySize.2 ≤ m.body.length + b.length := by omega
  have hfull' : m.expectedBodySize.2 ≤ m.body.length + (b ++ y).length := by
    rw [List.length_append]
    omega
  rw [grow, grow, List.take_append_of_le_length h, if_pos hfull, if_pos hfull']

theorem grow_of_lt (h : m.body.length + b.length < m.expectedBodySize.2) :
    m.grow b = { m with body := m.body ++ b } := by
  rw [grow, if_neg (Nat.not_le.mpr h), List.take_of_length_le (by omega)]

theorem grow_grow (y : Bytes) (h : m.body.length + b.length < m.expectedBodySize.2) :
    (m.grow b).grow y = m.grow (b ++ y) := by
  have htake : (b ++ y).take (m.expectedBodySize.2 - m.body.length) =
      b ++ y.take (m.expectedBodySize.2 - (m.body ++ b).length) := by
    rw [List.take_append, List.take_of_length_le (by omega), List.length_append, Nat.sub_sub]
  have hlength : m.body.length + (b ++ y).length = (m.body ++ b).length + y.length := by
    rw [List.length_append, List.length_append, Nat.add_assoc]
  rw [grow_of_lt h, grow, grow, htake, hlength, List.append_assoc]

variable [MessageType D]

theorem readInBody_known (h : m.state = .bodyPending) (hknown : m.expectedBodySize.1 = true) :
    m.readInBody b = if m.body.length ≤ m.expectedBodySize.2
      then .ok (min (m.expectedBodySize.2 - m.body.length) b.length, m.grow b)
      else .error .assertion := by
  have hstate : m.state = .bodyPending ∨ m.state = .complete := .inl h
  rw [readInBody, expectedSize, bodySizeIsKnown, assert_pos h, assert_pos hstate, ok_bind, ok_bind,
    hknown]
  by_cases hle : m.body.length ≤ m.expectedBodySize.2
  · have htake : b.take (min (m.expectedBodySize.2 - m.body.length) b.length) =
        b.take (m.expectedBodySize.2 - m.body.length) := List.take_eq_take_min.symm
    have hfull : (m.body ++ b.take (m.expectedBodySize.2 - m.body.length)).length =
        m.expectedBodySize.2 ↔ m.expectedBodySize.2 ≤ m.body.length + b.length := by
      rw [List.length_append, List.length_take]
      omega
    rw [if_pos hle, grow, ← if_congr hfull rfl rfl, ← htake]
    show (assert (m.body.length ≤ m.expectedBodySize.2) >>= fun _ => _) = _
    rw [assert_pos hle]
    rfl
  · rw [if_neg hle]
    show (assert (m.body.length ≤ m.expectedBodySize.2) >>= fun _ => _) = _
    rw [assert_neg hle]
    rfl

theorem readInBody_unknown (h : m.state = .bodyPending) (hknown : m.expectedBodySize.1 = false) :
    m.readInBody b = MessageType.readInComplexBody b m := by
  have hstate : m.state = .bodyPending ∨ m.state = .complete := .inl h
  rw [readInBody, bodySizeIsKnown, assert_pos h, assert_pos hstate, hknown]
  rfl

end HTTPMessage

namespace Cuttable

variable {D P : Type} [MessageType D] [SequenceType D P] (C : Cuttable D P)
variable {m m' : HTTPMessage D} {b : Bytes} {n : Nat} {e : HTTPError}

include C

theorem body_done (y : Bytes) (hstate : m.state = .bodyPending) (hinv : C.Inv m.members)
    (h : m.readInBody b = .ok (n, m')) (hc : m'.state = .complete) :
    m.readInBody (b ++ y) = .ok (n, m') := by
  cases hknown : m.expectedBodySize.1 with
  | true =>
      rw [HTTPMessage.readInBody_known hstate hknown] at h ⊢
      split at h
      next hle =>
        cases h
        have hfull : m.expectedBodySize.2 ≤ m.body.length + b.length := by
          by_contra hlt
          rw [HTTPMessage.grow_of_lt (Nat.not_le.mp hlt), hstate] at hc
          cases hc
        rw [if_pos hle, HTTPMessage.grow_append_of_le y (by omega), List.length_append]
        congr 2
        omega
      · cases h
  | false =>
      rw [HTTPMessage.readInBody_unknown hstate hknown] at h ⊢
      exact C.done y hinv h hc

theorem body_all (y : Bytes) (hstate : m.state = .bodyPending) (hinv : C.Inv m.members)
    (h : m.readInBody b = .ok (n, m')) (hc : m'.state ≠ .complete) :
    (n = b.length ∧ m'.state = .bodyPending ∧ m'.expectedBodySize = m.expectedBodySize ∧
        C.Inv m'.members) ∧
      m.readInBody (b ++ y) = (m'.readInBody y).map fun r => (b.length + r.1, r.2) := by
  cases hknown : m.expectedBodySize.1 with
  | true =>
      rw [HTTPMessage.readInBody_known hstate hknown] at h ⊢
      split at h
      next hle =>
        cases h
        have hlt : m.body.length + b.length < m.expectedBodySize.2 := by
          by_contra hfull
          exact hc (if_pos (Nat.not_lt.mp hfull))
        have hgrow := HTTPMessage.grow_of_lt hlt
        have hstate' : (m.grow b).state = .bodyPending := by rw [hgrow, hstate]
        refine ⟨⟨by omega, hstate', rfl, by rw [hgrow]; exact hinv⟩, ?_⟩
        have hlength : (m.grow b).body.length = m.body.length + b.length := by
          rw [hgrow, List.length_append]
        have hsize : (m.grow b).expectedBodySize = m.expectedBodySize := rfl
        rw [HTTPMessage.readInBody_known hstate' hknown, hsize, hlength, if_pos hle, if_pos hlt.le,
          HTTPMessage.grow_grow y hlt, List.length_append]
        refine congrArg Except.ok (Prod.ext ?_ rfl)
        dsimp only
        omega
      · cases h
  | false =>
      rw [HTTPMessage.readInBody_unknown hstate hknown] at h ⊢
      obtain ⟨⟨hn, hstate', hsize, hinv'⟩, hread⟩ := C.all y hinv h hc
      rw [HTTPMessage.readInBody_unknown hstate' (hsize ▸ hknown)]
      exact ⟨⟨hn, hstate', hsize, hinv'⟩, hread⟩

theorem body_le (hstate : m.state = .bodyPending) (hinv : C.Inv m.members)
    (h : m.readInBody b = .ok (n, m')) (hc : m'.state = .complete) : n ≤ b.length := by
  cases hknown : m.expectedBodySize.1 with
  | true =>
      rw [HTTPMessage.readInBody_known hstate hknown] at h
      split at h
      · cases h; exact Nat.min_le_right _ _
      · cases h
  | false =>
      rw [HTTPMessage.readInBody_unknown hstate hknown] at h
      exact C.done_le hinv h hc

theorem body_error (y : Bytes) (hstate : m.state = .bodyPending) (h : m.readInBody b = .error e)
    (hsafe : m.expectedBodySize.1 = false → C.Safe (b ++ y) m) :
    ∃ e', m.readInBody (b ++ y) = .error e' := by
  cases hknown : m.expectedBodySize.1 with
  | true =>
      rw [HTTPMessage.readInBody_known hstate hknown] at h ⊢
      split at h
      · cases h
      next hle => exact ⟨.assertion, if_neg hle⟩
  | false =>
      rw [HTTPMessage.readInBody_unknown hstate hknown] at h ⊢
      exact C.error y h (hsafe hknown)

end Cuttable

namespace HTTPMessageSequence

variable {D P : Type} {q q' : HTTPMessageSequence D P} {x y : Bytes}

/-! ### A longer buffer -/

theorem append_append (q : HTTPMessageSequence D P) (x y : Bytes) :
    (q.append x).append y = q.append (x ++ y) := by
  rw [append, append, append, List.append_assoc]

theorem line_append {i : Nat} (y : Bytes) (h : find CRLF q.buffer = some i) :
    find CRLF (q.append y).buffer = some i ∧
      (q.append y).buffer.take i = q.buffer.take i ∧
      (q.append y).buffer.drop (i + 2) = q.buffer.drop (i + 2) ++ y := by
  have hle : i + 2 ≤ q.buffer.length := find_le h
  exact ⟨find_append h, List.take_append_of_le_length (by omega),
    List.drop_append_of_le_length hle⟩

/-- A body that has taken the whole buffer reads on in what comes next. -/
theorem afterBody_buffer {r : Nat × HTTPMessage D} (h : r.1 = q.buffer.length) :
    ((q.afterBody r).append y).buffer = y := by
  rw [append, afterBody, h, List.drop_length, List.nil_append]

theorem afterBody_append {r s : Nat × HTTPMessage D} (h : r.1 = q.buffer.length) :
    (q.append y).afterBody (q.buffer.length + s.1, s.2) =
      ((q.afterBody r).append y).afterBody s := by
  have hdrop : (q.append y).buffer.drop (q.buffer.length + s.1) =
      ((q.afterBody r).append y).buffer.drop s.1 := by
    rw [afterBody_buffer h]
    exact List.drop_length_add_append s.1
  exact congrArg (fun buffer => { q with buffer, messageInProgress := s.2 }) hdrop

variable [MessageType D] [SequenceType D P]

/-- In front of the body a step waits for a line, or what it does depends on the line alone. -/
theorem parsingStep_line (h : q.messageInProgress.state = .firstLinePending ∨
    q.messageInProgress.state = .headersPending) :
    parsingStep q = .ok (.stop q) ∨ ∃ r : Except HTTPError (HTTPMessageSequence D P),
      parsingStep q = r.map .more ∧
        ∀ y, parsingStep (q.append y) = (r.map (append · y)).map .more := by
  cases hline : find CRLF q.buffer with
  | none =>
      rcases h with hstate | hstate
      · rw [parsingStep_firstLine hstate, hline]
        exact .inl rfl
      · rw [parsingStep_headers hstate, hline]
        exact .inl rfl
  | some i =>
      refine .inr ?_
      rcases h with hstate | hstate
      · refine ⟨(q.beginMessage (q.buffer.take i)).map fun r =>
          { q with members := r.1, buffer := q.buffer.drop (i + 2), messageInProgress := r.2 },
          ?_, fun y => ?_⟩
        · rw [parsingStep_firstLine hstate, hline]
          dsimp only
          cases q.beginMessage (q.buffer.take i) <;> rfl
        · obtain ⟨hfind, htake, hdrop⟩ := line_append y hline
          rw [parsingStep_firstLine (q := q.append y) hstate, hfind]
          dsimp only
          rw [htake, hdrop, show (q.append y).beginMessage (q.buffer.take i) =
            q.beginMessage (q.buffer.take i) from rfl]
          cases q.beginMessage (q.buffer.take i) <;> rfl
      · refine ⟨(headerLine (q.buffer.take i) q.messageInProgress).map fun m =>
          { q with buffer := q.buffer.drop (i + 2), messageInProgress := m }, ?_, fun y => ?_⟩
        · rw [parsingStep_headers hstate, hline]
          dsimp only
          cases headerLine (q.buffer.take i) q.messageInProgress <;> rfl
        · obtain ⟨hfind, htake, hdrop⟩ := line_append y hline
          rw [parsingStep_headers (q := q.append y) hstate, hfind]
          dsimp only
          rw [htake, hdrop, show (q.append y).messageInProgress = q.messageInProgress from rfl]
          cases headerLine (q.buffer.take i) q.messageInProgress <;> rfl

/-- The members of a message that is not complete keep the invariant. -/
def Good (K : Kept D P) (q : HTTPMessageSequence D P) : Prop :=
  q.messageInProgress.state ≠ .complete → K.Inv q.messageInProgress.members

theorem parsingStep_append (C : Cuttable D P) (y : Bytes) (hgood : q.Good C.toKept)
    (h : parsingStep q = .ok (.more q')) :
    parsingStep (q.append y) = .ok (.more (q'.append y)) := by
  rcases parsingStep_more h with ⟨hstate, i, r, hi, hr, rfl⟩ | ⟨hstate, i, m, hi, hm, rfl⟩ |
    ⟨hstate, r, hr, hle, hc, rfl⟩ | ⟨hstate, rfl⟩
  · obtain ⟨hfind, htake, hdrop⟩ := line_append y hi
    rw [parsingStep_firstLine (q := q.append y) hstate, hfind]
    dsimp only
    rw [htake, hdrop, show (q.append y).beginMessage _ = _ from hr]
    rfl
  · obtain ⟨hfind, htake, hdrop⟩ := line_append y hi
    rw [parsingStep_headers (q := q.append y) hstate, hfind]
    dsimp only
    rw [htake, hdrop, show headerLine _ (q.append y).messageInProgress = _ from hm]
    rfl
  · have hinv := hgood (by rw [hstate]; decide)
    have hr' : (q.append y).messageInProgress.readInBody (q.append y).buffer = .ok r :=
      C.body_done y hstate hinv hr hc
    have hle' : r.1 ≤ (q.append y).buffer.length := by
      rw [append, List.length_append]
      omega
    rw [parsingStep_body (q := q.append y) hstate, hr', ok_bind, assert_pos (.inr hc), ok_bind,
      assert_pos hle', ok_bind, if_pos hc, afterBody, afterBody, append, append,
      List.drop_append_of_le_length hle]
    rfl
  · rw [parsingStep_complete (q := q.append y) hstate]
    rfl

theorem parsingStep_wait (hstate : q.messageInProgress.state = .firstLinePending ∨
    q.messageInProgress.state = .headersPending) (h : parsingStep q = .ok (.stop q')) : q' = q := by
  rcases parsingStep_line hstate with hstop | ⟨r, hr, -⟩
  · cases hstop.symm.trans h
    rfl
  · obtain ⟨q₁, -, hnext⟩ := of_map_ok (hr.symm.trans h)
    cases hnext

/-- A step that asks for more has done nothing that it would not do with more. -/
theorem parsingStep_stop (C : Cuttable D P) (y : Bytes) (hinv : C.Inv q.messageInProgress.members)
    (h : parsingStep q = .ok (.stop q')) :
    parsingStep (q.append y) = parsingStep (q'.append y) ∧ C.Inv q'.messageInProgress.members ∧
      q'.completeMessages = q.completeMessages := by
  cases hstate : q.messageInProgress.state with
  | firstLinePending =>
      rw [parsingStep_wait (.inl hstate) h]
      exact ⟨rfl, hinv, rfl⟩
  | headersPending =>
      rw [parsingStep_wait (.inr hstate) h]
      exact ⟨rfl, hinv, rfl⟩
  | bodyPending =>
      obtain ⟨r, hr, hle, ⟨-, hn⟩ | ⟨hc, hlength, hn⟩⟩ := parsingStep_body_ok hstate h
      · cases hn
      · cases hn
        obtain ⟨⟨-, hstate', -, hinv'⟩, hread⟩ := C.body_all y hstate hinv hr hc
        refine ⟨?_, hinv', rfl⟩
        rw [parsingStep_body (q := q.append y) hstate,
          parsingStep_body (q := (q.afterBody r).append y) hstate', afterBody_buffer hlength,
          show (q.append y).messageInProgress.readInBody (q.append y).buffer = _ from hread,
          show ((q.afterBody r).append y).messageInProgress = r.2 from rfl]
        cases r.2.readInBody y with
        | error e => rfl
        | ok s =>
            have hlength' : (q.append y).buffer.length = q.buffer.length + y.length :=
              List.length_append
            have hall : q.buffer.length + s.1 = (q.append y).buffer.length ∨
                s.2.state = .complete ↔ s.1 = y.length ∨ s.2.state = .complete := by
              rw [hlength']
              exact or_congr (by omega) Iff.rfl
            have hle' : q.buffer.length + s.1 ≤ (q.append y).buffer.length ↔
                s.1 ≤ y.length := by
              omega
            show (assert (q.buffer.length + s.1 = _ ∨ s.2.state = .complete) >>= fun _ =>
              assert (q.buffer.length + s.1 ≤ _) >>= fun _ => _) = _
            rw [assert_congr hall, assert_congr hle', afterBody_append hlength]
            rfl
  | complete =>
      rw [parsingStep_complete hstate] at h
      cases h

/-- What is safe to read on is safe to read later. -/
theorem parsingStep_stop_safe (C : Cuttable D P) (y : Bytes)
    (hinv : C.Inv q.messageInProgress.members) (h : parsingStep q = .ok (.stop q'))
    (hsafe : q.messageInProgress.state = .bodyPending →
      q.messageInProgress.expectedBodySize.1 = false →
        C.Safe (q.append y).buffer q.messageInProgress)
    (hstate : q'.messageInProgress.state = .bodyPending)
    (hknown : q'.messageInProgress.expectedBodySize.1 = false) :
    C.Safe (q'.append y).buffer q'.messageInProgress := by
  cases hbefore : q.messageInProgress.state with
  | firstLinePending =>
      rw [parsingStep_wait (.inl hbefore) h, hbefore] at hstate
      cases hstate
  | headersPending =>
      rw [parsingStep_wait (.inr hbefore) h, hbefore] at hstate
      cases hstate
  | bodyPending =>
      obtain ⟨r, hr, -, ⟨-, hn⟩ | ⟨hc, hlength, hn⟩⟩ := parsingStep_body_ok hbefore h
      · cases hn
      · cases hn
        obtain ⟨⟨-, -, hsize, -⟩, -⟩ := C.body_all y hbefore hinv hr hc
        have hunknown : q.messageInProgress.expectedBodySize.1 = false := hsize ▸ hknown
        rw [HTTPMessage.readInBody_unknown hbefore hunknown] at hr
        rw [afterBody_buffer hlength]
        exact C.safe y hr hc (hsafe hbefore hunknown)
  | complete =>
      rw [parsingStep_complete hbefore] at h
      cases h

theorem parsingStep_error (C : Cuttable D P) {e : HTTPError} (y : Bytes)
    (hinv : C.Inv q.messageInProgress.members) (h : parsingStep q = .error e)
    (hsafe : q.messageInProgress.state = .bodyPending →
      q.messageInProgress.expectedBodySize.1 = false →
        C.Safe (q.append y).buffer q.messageInProgress) :
    ∃ e', parsingStep (q.append y) = .error e' := by
  have hline : q.messageInProgress.state = .firstLinePending ∨
      q.messageInProgress.state = .headersPending → ∃ e', parsingStep (q.append y) = .error e' := by
    intro hstate
    rcases parsingStep_line hstate with hstop | ⟨r, hr, hy⟩
    · cases hstop.symm.trans h
    · have herror := of_map_error (hr.symm.trans h)
      exact ⟨e, by rw [hy y, herror]; rfl⟩
  cases hstate : q.messageInProgress.state with
  | firstLinePending => exact hline (.inl hstate)
  | headersPending => exact hline (.inr hstate)
  | bodyPending =>
      rw [parsingStep_body hstate] at h
      rcases bind_error.mp h with hbody | ⟨r, hr, h⟩
      · obtain ⟨e', he'⟩ := C.body_error y hstate hbody (hsafe hstate)
        rw [parsingStep_body (q := q.append y) hstate]
        exact ⟨e', bind_error.mpr (.inl he')⟩
      · -- the two assertions hold
        by_cases hc : r.2.state = .complete
        · have hle := C.body_le hstate hinv hr hc
          rw [assert_pos (.inr hc), ok_bind, assert_pos hle] at h
          cases h
        · obtain ⟨⟨hn, -⟩, -⟩ := C.body_all [] hstate hinv hr hc
          rw [assert_pos (.inl hn), ok_bind, assert_pos hn.le] at h
          cases h
  | complete =>
      rw [parsingStep_complete hstate] at h
      cases h

theorem parsingStep_good (K : Kept D P) (hgood : q.Good K)
    (h : parsingStep q = .ok (.more q')) : q'.Good K := by
  rcases parsingStep_more h with ⟨hstate, i, r, -, hr, rfl⟩ | ⟨hstate, i, m, -, hm, rfl⟩ |
    ⟨-, r, -, -, hc, rfl⟩ | ⟨-, rfl⟩
  · have hinv := hgood (by rw [hstate]; decide)
    obtain ⟨r₁, hr₁, hr⟩ := bind_ok.mp hr
    obtain ⟨m, hm, hr⟩ := bind_ok.mp hr
    cases hr
    obtain ⟨-, -, hm⟩ := bind_ok.mp hm
    cases hm
    have hstart : K.Inv r₁.2.members := K.start hr₁ hinv
    exact fun _ => hstart
  · have hinv := hgood (by rw [hstate]; decide)
    unfold headerLine at hm
    split at hm
    · obtain ⟨-, -, hm⟩ := bind_ok.mp hm
      exact fun _ => K.calculate hm hinv
    · obtain ⟨-, -, hm⟩ := bind_ok.mp hm
      obtain ⟨header, -, hm⟩ := bind_ok.mp hm
      cases hm
      exact fun _ => hinv
  · exact fun hne => absurd hc hne
  · exact fun _ => K.initial

/-! ### A piece and the rest -/

/-- What `parse` does with a piece that is not empty. -/
def resume (x : Bytes) (q : HTTPMessageSequence D P) :
    Except (Failure D) (HTTPMessageSequence D P) := parsing.run (q.append x)

theorem parse_eq (h : x ≠ []) : parse x q = resume x q := by
  rw [parse, if_neg fun hempty => h (List.isEmpty_iff.mp hempty)]
  rfl

/-- A parser that has read nothing waits. -/
theorem resume_nil {members : P} :
    resume [] { messageInProgress := (HTTPMessage.new : HTTPMessage D), members } =
      .ok { messageInProgress := HTTPMessage.new, members } := rfl

theorem parsing_step :
    parsing.step q = (parsingStep q).mapError fun e => (e, q.completeMessages) := rfl

theorem parsing_step_ok {n : Next (HTTPMessageSequence D P) (HTTPMessageSequence D P)} :
    parsing.step q = .ok n ↔ parsingStep q = .ok n := by
  constructor
  · exact of_mapError_ok
  · intro h
    rw [parsing_step, h]
    rfl

theorem reaches_append (C : Cuttable D P) {t : HTTPMessageSequence D P} (y : Bytes)
    (hgood : q.Good C.toKept) (h : parsing.Reaches q t) :
    parsing.Reaches (q.append y) (t.append y) := by
  induction h with
  | refl => exact .refl _
  | more hstep _ ih =>
      have hstep' := parsing_step_ok.mp hstep
      exact .more (parsing_step_ok.mpr (parsingStep_append C y hgood hstep'))
        (ih (parsingStep_good C.toKept hgood hstep'))

theorem reaches_good (K : Kept D P) {t : HTTPMessageSequence D P} (hgood : q.Good K)
    (h : parsing.Reaches q t) : t.Good K :=
  h.invariant (P := Good K)
    (fun _ _ hs hstep => parsingStep_good K hs (parsing_step_ok.mp hstep)) hgood

/-- No body that is read on the way from `q` goes wrong. -/
def SafeFrom (C : Cuttable D P) (q : HTTPMessageSequence D P) : Prop :=
  ∀ t, parsing.Reaches q t → t.messageInProgress.state = .bodyPending →
    t.messageInProgress.expectedBodySize.1 = false → C.Safe t.buffer t.messageInProgress

/-- A piece that is taken, and more. -/
theorem resume_append (C : Cuttable D P) (hgood : q.Good C.toKept) (h : resume x q = .ok q')
    (y : Bytes) :
    resume (x ++ y) q = resume y q' ∧ q'.Good C.toKept ∧
      (SafeFrom C (q.append (x ++ y)) → SafeFrom C (q'.append y)) := by
  obtain ⟨t, ht, hstop⟩ := Loop.run_ok_iff.mp h
  have hstop' := parsing_step_ok.mp hstop
  have hinv : C.Inv t.messageInProgress.members := by
    refine reaches_good C.toKept (q := q.append x) hgood ht fun hc => ?_
    rw [parsingStep_complete hc] at hstop'
    cases hstop'
  obtain ⟨hstep, hinv', hcs⟩ := parsingStep_stop C y hinv hstop'
  have hreach : parsing.Reaches (q.append (x ++ y)) (t.append y) :=
    append_append q x y ▸ reaches_append C y (q := q.append x) hgood ht
  have hsame : parsing.step (t.append y) = parsing.step (q'.append y) := by
    rw [parsing_step, parsing_step, hstep,
      show (t.append y).completeMessages = (q'.append y).completeMessages from hcs.symm]
  -- `t` with more to read and `q'` with more to read take the same next step
  refine ⟨hreach.run_eq.trans (Loop.run_congr hsame), fun _ => hinv', fun hsafe u hu => ?_⟩
  cases hu with
  | refl =>
      exact parsingStep_stop_safe C y hinv hstop' (hsafe _ hreach)
  | more hmore hu => exact hsafe u (hreach.trans (.more (hsame.trans hmore) hu))

/-- A piece that is refused, and more. -/
theorem resume_error (C : Cuttable D P) {e : HTTPError} {cs : List (HTTPMessage D)}
    (hgood : q.Good C.toKept) (h : resume x q = .error (e, cs)) (y : Bytes)
    (hsafe : SafeFrom C (q.append (x ++ y))) :
    ∃ e', resume (x ++ y) q = .error (e', cs) := by
  obtain ⟨t, ht, hstop⟩ := Loop.run_error_iff.mp h
  obtain ⟨e₀, hstop', he⟩ := of_mapError_error hstop
  cases he
  have hinv : C.Inv t.messageInProgress.members := by
    refine reaches_good C.toKept (q := q.append x) hgood ht fun hc => ?_
    rw [parsingStep_complete hc] at hstop'
    cases hstop'
  have hreach : parsing.Reaches (q.append (x ++ y)) (t.append y) :=
    append_append q x y ▸ reaches_append C y (q := q.append x) hgood ht
  obtain ⟨e', he'⟩ := parsingStep_error C y hinv hstop' (hsafe _ hreach)
  exact ⟨e', Loop.run_error_iff.mpr ⟨_, hreach, by rw [parsing_step, he']; rfl⟩⟩

/-! ### All pieces -/

/-- Both end in the same parser, or fail after the same complete messages. -/
def Agree : Except (Failure D) (HTTPMessageSequence D P) →
    Except (Failure D) (HTTPMessageSequence D P) → Prop
  | .ok q, .ok q' => q = q'
  | .error e, .error e' => e.2 = e'.2
  | _, _ => False

/-- The messages that are complete when a run ends. -/
def completed : Except (Failure D) (HTTPMessageSequence D P) → List (HTTPMessage D)
  | .ok q => q.completeMessages
  | .error e => e.2

omit [MessageType D] [SequenceType D P] in
theorem Agree.completed_eq {a b : Except (Failure D) (HTTPMessageSequence D P)} (h : Agree a b) :
    completed a = completed b := by
  cases a with
  | error e =>
      cases b with
      | error e' => exact h
      | ok q' => exact h.elim
  | ok q =>
      cases b with
      | error e' => exact h.elim
      | ok q' => exact congrArg completeMessages h

/-- A complete message stays. -/
theorem reaches_completed {t : HTTPMessageSequence D P} (h : parsing.Reaches q t) :
    q.completeMessages <+: t.completeMessages :=
  h.invariant (P := fun u => q.completeMessages <+: u.completeMessages)
    (fun _ _ hu hstep => hu.trans (parsingStep_completes (parsing_step_ok.mp hstep)))
    List.prefix_rfl

theorem parsingStep_stop_completes (h : parsingStep q = .ok (.stop q')) :
    q'.completeMessages = q.completeMessages := by
  cases hstate : q.messageInProgress.state with
  | firstLinePending => rw [parsingStep_wait (.inl hstate) h]
  | headersPending => rw [parsingStep_wait (.inr hstate) h]
  | bodyPending =>
      obtain ⟨r, -, -, ⟨-, hn⟩ | ⟨-, -, hn⟩⟩ := parsingStep_body_ok hstate h
      · cases hn
      · cases hn
        rfl
  | complete =>
      rw [parsingStep_complete hstate] at h
      cases h

theorem run_completed : q.completeMessages <+: completed (parsing.run q) := by
  cases hrun : parsing.run q with
  | ok q' =>
      obtain ⟨t, ht, hstop⟩ := Loop.run_ok_iff.mp hrun
      rw [completed, parsingStep_stop_completes (parsing_step_ok.mp hstop)]
      exact reaches_completed ht
  | error e =>
      obtain ⟨t, ht, hstop⟩ := Loop.run_error_iff.mp hrun
      obtain ⟨e₀, -, he⟩ := of_mapError_error hstop
      cases he
      exact reaches_completed ht

theorem run_completed_of_complete (h : q.messageInProgress.state = .complete) :
    q.completeMessages ++ [q.messageInProgress] <+: completed (parsing.run q) := by
  rw [Loop.run_more (parsing_step_ok.mpr (parsingStep_complete h))]
  exact run_completed (q := { q with
    completeMessages := q.completeMessages ++ [q.messageInProgress]
    messageInProgress := HTTPMessage.new })

/-- `pieces` are `s`, cut into pieces that are not empty. -/
def Cut (s : Bytes) (pieces : List Bytes) : Prop := pieces.flatten = s ∧ ∀ x ∈ pieces, x ≠ []

/-- Pieces that are all taken are taken at once. -/
theorem resume_flatten (C : Cuttable D P) {pieces : List Bytes} (hne : ∀ x ∈ pieces, x ≠ []) :
    ∀ {q q' : HTTPMessageSequence D P}, q.Good C.toKept → resume [] q = .ok q →
      run parse pieces q = .ok q' → resume pieces.flatten q = .ok q' := by
  induction pieces with
  | nil =>
      intro q q' _ hrest h
      rw [run_nil] at h
      rwa [List.flatten_nil, ← Except.ok.inj h]
  | cons x pieces ih =>
      intro q q' hgood _ h
      obtain ⟨hx, hne⟩ := List.forall_mem_cons.mp hne
      rw [run_cons, parse_eq hx] at h
      obtain ⟨q₁, hread, h⟩ := bind_ok.mp h
      obtain ⟨hmore, hgood', -⟩ := resume_append C hgood hread pieces.flatten
      obtain ⟨hrest, -, -⟩ := resume_append C hgood hread []
      rw [List.append_nil, hread] at hrest
      rw [List.flatten_cons, hmore]
      exact ih hne hgood' hrest.symm h

/-- Pieces are read like the stream they make up. -/
theorem feed_agrees (C : Cuttable D P) {pieces : List Bytes} (hne : ∀ x ∈ pieces, x ≠ []) :
    ∀ {q : HTTPMessageSequence D P}, q.Good C.toKept → resume [] q = .ok q →
      SafeFrom C (q.append pieces.flatten) →
      Agree (run parse pieces q) (resume pieces.flatten q) := by
  induction pieces with
  | nil =>
      intro q _ hrest _
      rw [run_nil, List.flatten_nil, hrest]
      exact rfl
  | cons x pieces ih =>
      intro q hgood _ hsafe
      obtain ⟨hx, hne⟩ := List.forall_mem_cons.mp hne
      rw [List.flatten_cons] at hsafe ⊢
      rw [run_cons, parse_eq hx]
      cases hread : resume x q with
      | error e =>
          -- no later piece is read, and the whole stream fails in the same place
          obtain ⟨e', he'⟩ := resume_error C hgood hread pieces.flatten hsafe
          rw [he']
          exact rfl
      | ok q' =>
          -- the rest of the stream is read from where the piece has stopped
          obtain ⟨hmore, hgood', hsafe'⟩ := resume_append C hgood hread pieces.flatten
          obtain ⟨hrest, -, -⟩ := resume_append C hgood hread []
          rw [List.append_nil, hread] at hrest
          rw [hmore, ok_bind]
          exact ih hne hgood' hrest.symm (hsafe' hsafe)

omit [MessageType D] [SequenceType D P] in
theorem Agree.trans {a b c : Except (Failure D) (HTTPMessageSequence D P)} (h : Agree a c)
    (h' : Agree b c) : Agree a b := by
  cases a with
  | error e =>
      cases c with
      | error e'' =>
          cases b with
          | error e' => exact Eq.trans h (Eq.symm h')
          | ok q' => exact h'.elim
      | ok q'' => exact h.elim
  | ok q =>
      cases c with
      | error e'' => exact h.elim
      | ok q'' =>
          cases b with
          | error e' => exact h'.elim
          | ok q' => exact Eq.trans h (Eq.symm h')

/-- **Any two cuts agree** where no body goes wrong. -/
theorem cuts_agree (C : Cuttable D P) (hgood : q.Good C.toKept) (hrest : resume [] q = .ok q)
    {s : Bytes} (hsafe : SafeFrom C (q.append s)) {xs ys : List Bytes} (hxs : Cut s xs)
    (hys : Cut s ys) : Agree (run parse xs q) (run parse ys q) := by
  obtain ⟨rfl, hx⟩ := hxs
  obtain ⟨heq, hy⟩ := hys
  have hfeed := feed_agrees C hy hgood hrest (heq.symm ▸ hsafe)
  rw [heq] at hfeed
  exact (feed_agrees C hx hgood hrest hsafe).trans hfeed

/-! ### Cuts of which no piece goes wrong -/

/-- The parser has asked for more. -/
structure Waits (q : HTTPMessageSequence D P) : Prop where
  complete : q.messageInProgress.state ≠ .complete
  body : q.messageInProgress.state = .bodyPending → q.buffer = []
  line : q.messageInProgress.state ≠ .bodyPending → find CRLF q.buffer = none

omit [SequenceType D P] in
theorem waits_new {members : P} :
    Waits { messageInProgress := (HTTPMessage.new : HTTPMessage D), members } where
  complete h := by cases h
  body _ := rfl
  line _ := rfl

theorem parsingStep_stop_waits (C : Cuttable D P) (hinv : C.Inv q.messageInProgress.members)
    (h : parsingStep q = .ok (.stop q')) : q'.Waits := by
  cases hstate : q.messageInProgress.state with
  | firstLinePending =>
      have hsame := parsingStep_wait (.inl hstate) h
      rw [parsingStep_firstLine hstate] at h
      split at h
      · obtain ⟨r, -, hr⟩ := of_map_ok h
        cases hr
      next hline =>
        rw [hsame]
        refine ⟨?_, ?_, fun _ => hline⟩
        · rw [hstate]; decide
        · rw [hstate]; exact fun hbody => by cases hbody
  | headersPending =>
      have hsame := parsingStep_wait (.inr hstate) h
      rw [parsingStep_headers hstate] at h
      split at h
      · obtain ⟨m, -, hm⟩ := of_map_ok h
        cases hm
      next hline =>
        rw [hsame]
        refine ⟨?_, ?_, fun _ => hline⟩
        · rw [hstate]; decide
        · rw [hstate]; exact fun hbody => by cases hbody
  | bodyPending =>
      obtain ⟨r, hr, -, ⟨-, hn⟩ | ⟨hc, hlength, hn⟩⟩ := parsingStep_body_ok hstate h
      · cases hn
      · cases hn
        obtain ⟨⟨-, hstate', -, -⟩, -⟩ := C.body_all [] hstate hinv hr hc
        refine ⟨hc, fun _ => ?_, fun hne => absurd hstate' hne⟩
        rw [afterBody, hlength, List.drop_length]
  | complete =>
      rw [parsingStep_complete hstate] at h
      cases h

theorem resume_waits (C : Cuttable D P) (hgood : q.Good C.toKept) (h : resume x q = .ok q') :
    q'.Waits := by
  obtain ⟨t, ht, hstop⟩ := Loop.run_ok_iff.mp h
  have hstop' := parsing_step_ok.mp hstop
  refine parsingStep_stop_waits C ?_ hstop'
  refine reaches_good C.toKept (q := q.append x) hgood ht fun hc => ?_
  rw [parsingStep_complete hc] at hstop'
  cases hstop'

/-- What the first step of a piece leaves in the buffer is a part of the piece. -/
theorem Waits.first_step (h : q.Waits) (hstep : parsingStep (q.append x) = .ok (.more q')) :
    q'.buffer.length ≤ x.length := by
  have hline : ∀ {i : Nat}, find CRLF q.buffer = none → find CRLF (q.buffer ++ x) = some i →
      ((q.buffer ++ x).drop (i + 2)).length ≤ x.length := by
    intro i hnone hi
    have hlt : q.buffer.length < i + 2 := find_append_none hnone hi
    rw [List.length_drop, List.length_append]
    omega
  rcases parsingStep_more hstep with ⟨hstate, i, r, hi, -, rfl⟩ | ⟨hstate, i, m, hi, -, rfl⟩ |
    ⟨hstate, r, -, -, -, rfl⟩ | ⟨hstate, rfl⟩
  · exact hline (h.line (by rw [show q.messageInProgress.state = _ from hstate]; decide)) hi
  · exact hline (h.line (by rw [show q.messageInProgress.state = _ from hstate]; decide)) hi
  · have hlength : (q.append x).buffer.length = x.length := by
      rw [append, h.body hstate, List.nil_append]
    rw [afterBody, List.length_drop, hlength]
    exact Nat.sub_le _ _
  · exact absurd hstate h.complete

theorem reaches_length {t : HTTPMessageSequence D P} (h : parsing.Reaches q t) :
    t.buffer.length ≤ q.buffer.length :=
  h.invariant (P := fun u => u.buffer.length ≤ q.buffer.length)
    (fun _ _ hu hstep => (parsingStep_length (parsing_step_ok.mp hstep)).trans hu) (Nat.le_refl _)

/-- **A body that a piece comes to** is in the piece. -/
theorem Waits.reaches_body {t : HTTPMessageSequence D P} (h : q.Waits)
    (ht : parsing.Reaches (q.append x) t) (hstate : t.messageInProgress.state = .bodyPending) :
    t.buffer.length ≤ x.length := by
  cases ht with
  | refl =>
      rw [append, h.body hstate, List.nil_append]
  | more hstep hreach =>
      exact (reaches_length hreach).trans (h.first_step (parsing_step_ok.mp hstep))

/-- Pieces are read like their bytes, one at a time. -/
theorem feed_bytes (C : Cuttable D P) {pieces : List Bytes}
    (hsafe : ∀ x ∈ pieces, ∀ q : HTTPMessageSequence D P, q.Good C.toKept → q.Waits →
      SafeFrom C (q.append x)) (hne : ∀ x ∈ pieces, x ≠ []) :
    ∀ {q : HTTPMessageSequence D P}, q.Good C.toKept → resume [] q = .ok q → q.Waits →
      Agree (run parse pieces q) (run parse (pieces.flatten.map fun b => [b]) q) := by
  induction pieces with
  | nil =>
      intro q _ _ _
      exact rfl
  | cons x pieces ih =>
      intro q hgood hrest hwaits
      obtain ⟨hx, hsafe⟩ := List.forall_mem_cons.mp hsafe
      obtain ⟨hnex, hne⟩ := List.forall_mem_cons.mp hne
      have hflat : (x.map fun b => [b]).flatten = x :=
        List.flatMap_def.symm.trans (List.flatMap_singleton' x)
      have hbyte : ∀ y ∈ x.map fun b => [b], y ≠ [] := by simp
      have hbytes := feed_agrees C hbyte hgood hrest (hflat.symm ▸ hx q hgood hwaits)
      rw [hflat] at hbytes
      rw [run_cons, parse_eq hnex, List.flatten_cons, List.map_append, run_append]
      cases hread : resume x q with
      | error e =>
          rw [hread] at hbytes
          cases hrun : run parse (x.map fun b => [b]) q with
          | error e' =>
              rw [hrun] at hbytes
              exact Eq.symm hbytes
          | ok q' =>
              rw [hrun] at hbytes
              exact hbytes.elim
      | ok q' =>
          rw [hread] at hbytes
          cases hrun : run parse (x.map fun b => [b]) q with
          | error e' =>
              rw [hrun] at hbytes
              exact hbytes.elim
          | ok q'' =>
              rw [hrun] at hbytes
              obtain rfl : q'' = q' := hbytes
              obtain ⟨hrest', hgood', -⟩ := resume_append C hgood hread []
              rw [List.append_nil, hread] at hrest'
              exact ih hsafe hne hgood' hrest'.symm (resume_waits C hgood hread)

/-- **Any two cuts agree** where no body goes wrong within one piece. -/
theorem piecewise_cuts_agree (C : Cuttable D P) (hgood : q.Good C.toKept)
    (hrest : resume [] q = .ok q) (hwaits : q.Waits) {s : Bytes} {xs ys : List Bytes}
    (hsafe : ∀ x ∈ xs ++ ys, ∀ q : HTTPMessageSequence D P, q.Good C.toKept → q.Waits →
      SafeFrom C (q.append x)) (hxs : Cut s xs) (hys : Cut s ys) :
    Agree (run parse xs q) (run parse ys q) := by
  obtain ⟨rfl, hx⟩ := hxs
  obtain ⟨heq, hy⟩ := hys
  obtain ⟨hsafex, hsafey⟩ := List.forall_mem_append.mp hsafe
  have hbytes := feed_bytes C hsafey hy hgood hrest hwaits
  rw [heq] at hbytes
  exact (feed_bytes C hsafex hx hgood hrest hwaits).trans hbytes

end HTTPMessageSequence

end Mahimahi
