import Mahimahi.Http.Segmentation

/-!
# Http — the bodies of the two parsers

* `HTTPRequestParser.cuttable`, `HTTPResponseParser.cuttable`: the bodies can be read in pieces.
* `BodyParser.ReadsSafely`: a chunked body is read without a chunk whose size wraps.
-/

open Fallible MachineInt

namespace Mahimahi

open Loops HTTPMessageSequence

/-- A request's body has a known size. -/
def HTTPRequestParser.cuttable : Cuttable RequestMembers RequestParserMembers where
  Inv _ := True
  Safe _ _ := True
  initial := trivial
  start _ _ := trivial
  calculate _ _ := trivial
  done _ _ h := nomatch h
  done_le _ h := nomatch h
  all _ _ h := nomatch h
  error _ _ _ := ⟨_, rfl⟩
  safe _ h := nomatch h

/-! ### What a response reads -/

namespace HTTPResponse

/-- The message after its body parser has answered. -/
def afterRead (str : Bytes) (m : HTTPResponse) : BodyRead BodyParser → Nat × HTTPResponse
  | .all parser => (str.length, { m with
      body := m.body ++ str
      members := { m.members with bodyParser := some parser } })
  | .done n => (n, { m with
      body := m.body ++ str.take n
      state := .complete
      members := { m.members with bodyParser := none } })

theorem readInComplexBody_eq {m : HTTPResponse} {parser : BodyParser} {str : Bytes}
    (hstate : m.state = .bodyPending) (hparser : m.members.bodyParser = some parser) :
    m.readInComplexBody str = (parser.read str).map (afterRead str m) := by
  rw [readInComplexBody, assert_pos hstate, ok_bind, hparser]
  dsimp only
  cases parser.read str with
  | error e => rfl
  | ok r => cases r <;> rfl

/-- What a read that returns has found. -/
theorem readInComplexBody_ok {m m' : HTTPResponse} {str : Bytes} {n : Nat}
    (h : m.readInComplexBody str = .ok (n, m')) :
    m.state = .bodyPending ∧ ∃ parser r, m.members.bodyParser = some parser ∧
      parser.read str = .ok r ∧ (n, m') = afterRead str m r := by
  obtain ⟨_, hstate, -⟩ := bind_ok.mp h
  have hstate' : m.state = .bodyPending := assert_ok.mp hstate
  cases hparser : m.members.bodyParser with
  | none =>
      rw [readInComplexBody, assert_pos hstate', ok_bind, hparser] at h
      cases h
  | some parser =>
      rw [readInComplexBody_eq hstate' hparser] at h
      obtain ⟨r, hr, hafter⟩ := of_map_ok h
      exact ⟨hstate', parser, r, rfl, hr, hafter.symm⟩

theorem setExpectedBodySize_members {m m' : HTTPResponse} {isKnown : Bool} {value : Nat}
    (h : m.setExpectedBodySize isKnown value = .ok m') : m'.members = m.members := by
  obtain ⟨-, -, h⟩ := bind_ok.mp h
  cases h
  rfl

theorem setBodyParser_members {m m' : HTTPResponse} {parser : BodyParser}
    (h : m.setBodyParser parser = .ok m') : m'.members.bodyParser = some parser := by
  obtain ⟨m₁, -, h⟩ := bind_ok.mp h
  cases h
  rfl

/-- The headers leave the body parser, or make a new one. -/
theorem calculateExpectedBodySize_members {m m' : HTTPResponse}
    (h : m.calculateExpectedBodySize = .ok m') : m'.members = m.members ∨
      m'.members.bodyParser = some .rule5 ∨
      ∃ trailersEnabled, m'.members.bodyParser = some (.chunked { trailersEnabled }) := by
  obtain ⟨-, -, h⟩ := bind_ok.mp h
  obtain ⟨none, -, h⟩ := bind_ok.mp h
  split at h
  · exact .inl (setExpectedBodySize_members h)
  · obtain ⟨chunked, -, h⟩ := bind_ok.mp h
    split at h
    · exact .inr (.inr ⟨_, setBodyParser_members h⟩)
    · split at h
      · obtain ⟨value, -, h⟩ := bind_ok.mp h
        obtain ⟨size, -, h⟩ := bind_ok.mp h
        exact .inl (setExpectedBodySize_members h)
      · obtain ⟨multipart, -, h⟩ := bind_ok.mp h
        split at h
        · cases h
        · exact .inr (.inl (setBodyParser_members h))

end HTTPResponse

/-! ### Body parsers -/

namespace BodyParser

variable {parser parser' : BodyParser} {b : Bytes} {n : Nat} {e : HTTPError}

theorem read_done (y : Bytes) (h : parser.read b = .ok (.done n)) :
    parser.read (b ++ y) = .ok (.done n) := by
  cases parser with
  | rule5 => cases h
  | chunked p =>
      obtain ⟨r, hr, h⟩ := bind_ok.mp h
      cases r with
      | all p' => cases h
      | done k =>
          cases h
          rw [read, ChunkedBodyParser.read_done y hr]
          rfl

theorem read_all (y : Bytes) (hidle : ∀ p, parser = .chunked p → p.Idle)
    (h : parser.read b = .ok (.all parser')) :
    (∀ p, parser' = .chunked p → p.Idle) ∧
      parser.read (b ++ y) = (parser'.read y).map (BodyRead.behind b.length) := by
  cases parser with
  | rule5 =>
      cases h
      exact ⟨fun p hp => (nomatch hp), rfl⟩
  | chunked p =>
      obtain ⟨r, hr, h⟩ := bind_ok.mp h
      cases r with
      | done k => cases h
      | all p' =>
          cases h
          have hidle' := ChunkedBodyParser.read_idle (hidle p rfl) hr
          obtain ⟨-, hread⟩ := ChunkedBodyParser.read_all y (hidle p rfl).acked hr
          refine ⟨fun p₁ hp₁ => by cases hp₁; exact hidle', ?_⟩
          rw [read, read, hread]
          cases p'.read y with
          | error e => rfl
          | ok r => cases r <;> rfl

theorem read_le (hidle : ∀ p, parser = .chunked p → p.Idle)
    (h : parser.read b = .ok (.done n)) : n ≤ b.length := by
  cases parser with
  | rule5 => cases h
  | chunked p =>
      obtain ⟨r, hr, h⟩ := bind_ok.mp h
      cases r with
      | all p' => cases h
      | done k =>
          cases h
          exact ChunkedBodyParser.read_le (hidle p rfl).acked hr

/-- No chunk whose size with its CRLF wraps passes when the parser reads `str`. -/
def ReadsSafely (str : Bytes) (parser : BodyParser) : Prop :=
  ∀ p, parser = .chunked p →
    ∀ c, Chunks.loop.Reaches (p.toChunks.append str) c → ¬ c.WrapPasses

theorem read_error (y : Bytes) (h : parser.read b = .error e)
    (hsafe : parser.ReadsSafely (b ++ y)) : ∃ e', parser.read (b ++ y) = .error e' := by
  cases parser with
  | rule5 => cases h
  | chunked p =>
      rcases bind_error.mp h with hread | ⟨r, -, h⟩
      · obtain ⟨e', he'⟩ := ChunkedBodyParser.read_error y hread (hsafe p rfl)
        exact ⟨e', by rw [read, he']; rfl⟩
      · cases r <;> cases h

/-- What is left to read is read as it would have been at once. -/
theorem read_all_safely (y : Bytes) (h : parser.read b = .ok (.all parser'))
    (hsafe : parser.ReadsSafely (b ++ y)) : parser'.ReadsSafely y := by
  cases parser with
  | rule5 =>
      cases h
      exact fun p hp => (nomatch hp)
  | chunked p =>
      obtain ⟨r, hr, h⟩ := bind_ok.mp h
      cases r with
      | done k => cases h
      | all p' =>
          cases h
          intro p₁ hp₁ c hc
          cases hp₁
          exact hsafe p rfl c ((ChunkedBodyParser.read_all_reaches y hr).trans hc)

end BodyParser

/-! ### Responses in pieces -/

namespace HTTPResponse

variable {m m' : HTTPResponse} {parser parser' : BodyParser} {b : Bytes} {n k : Nat}

theorem readInComplexBody_done (y : Bytes) (hstate : m.state = .bodyPending)
    (hparser : m.members.bodyParser = some parser) (h : parser.read b = .ok (.done k))
    (hle : k ≤ b.length) :
    m.readInComplexBody (b ++ y) = .ok (afterRead b m (.done k)) := by
  rw [readInComplexBody_eq hstate hparser, BodyParser.read_done y h, afterRead,
    ← List.take_append_of_le_length hle]
  rfl

theorem afterRead_behind (y : Bytes) (r : BodyRead BodyParser) :
    afterRead (b ++ y) m (r.behind b.length) =
      ((b.length + (afterRead y (afterRead b m (.all parser')).2 r).1,
        (afterRead y (afterRead b m (.all parser')).2 r).2)) := by
  cases r with
  | all p => simp only [BodyRead.behind, afterRead, List.length_append, List.append_assoc]
  | done k =>
      simp only [BodyRead.behind, afterRead, List.take_length_add_append, List.append_assoc]

theorem readInComplexBody_all (y : Bytes) (hstate : m.state = .bodyPending)
    (hparser : m.members.bodyParser = some parser)
    (hread : parser.read (b ++ y) = (parser'.read y).map (BodyRead.behind b.length)) :
    m.readInComplexBody (b ++ y) =
      ((afterRead b m (.all parser')).2.readInComplexBody y).map fun r => (b.length + r.1, r.2) := by
  rw [readInComplexBody_eq hstate hparser, hread,
    readInComplexBody_eq (m := (afterRead b m (.all parser')).2) hstate rfl]
  cases parser'.read y with
  | error e => rfl
  | ok r => exact congrArg Except.ok (afterRead_behind y r)

theorem readInComplexBody_error (y : Bytes) (h : m.readInComplexBody b = .error e)
    (hsafe : ∀ parser, m.members.bodyParser = some parser → parser.ReadsSafely (b ++ y)) :
    ∃ e', m.readInComplexBody (b ++ y) = .error e' := by
  by_cases hstate : m.state = .bodyPending
  · cases hparser : m.members.bodyParser with
    | none =>
        refine ⟨.assertion, ?_⟩
        rw [readInComplexBody, assert_pos hstate, ok_bind, hparser]
        rfl
    | some parser =>
        rw [readInComplexBody_eq hstate hparser] at h ⊢
        obtain ⟨e', he'⟩ := parser.read_error y (of_map_error h) (hsafe parser hparser)
        exact ⟨e', by rw [he']; rfl⟩
  · exact ⟨.assertion, by rw [readInComplexBody, assert_neg hstate]; rfl⟩

end HTTPResponse

namespace HTTPResponseParser

theorem initializeNewMessage_bodyParser {r r' : ResponseParserMembers} {m m' : HTTPResponse}
    (h : initializeNewMessage r m = .ok (r', m')) :
    m'.members.bodyParser = m.members.bodyParser := by
  unfold initializeNewMessage at h
  split at h
  · cases h
  · obtain ⟨m₁, hm₁, h⟩ := bind_ok.mp h
    obtain ⟨-, -, hm₁⟩ := bind_ok.mp hm₁
    cases hm₁
    cases h
    rfl

/-- A property of new chunked parsers is kept until the body is read. -/
def kept (Q : ChunkedBodyParser → Prop) (hnew : ∀ trailersEnabled, Q { trailersEnabled }) :
    Kept ResponseMembers ResponseParserMembers where
  Inv d := ∀ p, d.bodyParser = some (.chunked p) → Q p
  initial _ h := nomatch h
  start h hinv p hp := hinv p (initializeNewMessage_bodyParser h ▸ hp)
  calculate h hinv p hp := by
    rcases HTTPResponse.calculateExpectedBodySize_members h with hsame | hrule | ⟨_, hchunked⟩
    · exact hinv p (hsame ▸ hp)
    · cases hrule.symm.trans hp
    · cases hchunked.symm.trans hp
      exact hnew _

/-- A response's body has a known size, or a parser. -/
def cuttable : Cuttable ResponseMembers ResponseParserMembers where
  toKept := kept ChunkedBodyParser.Idle ChunkedBodyParser.idle_new
  Safe str m := ∀ parser, m.members.bodyParser = some parser → parser.ReadsSafely str
  done y hinv h hc := by
    obtain ⟨hstate, parser, r, hparser, hr, hafter⟩ := HTTPResponse.readInComplexBody_ok h
    cases r with
    | all p => cases hafter; cases hstate.symm.trans hc
    | done k =>
        have hle := BodyParser.read_le (fun p hp => hinv p (hp ▸ hparser)) hr
        rw [hafter]
        exact HTTPResponse.readInComplexBody_done y hstate hparser hr hle
  done_le hinv h hc := by
    obtain ⟨hstate, parser, r, hparser, hr, hafter⟩ := HTTPResponse.readInComplexBody_ok h
    cases r with
    | all p => cases hafter; cases hstate.symm.trans hc
    | done k =>
        cases hafter
        exact BodyParser.read_le (fun p hp => hinv p (hp ▸ hparser)) hr
  all y hinv h hc := by
    obtain ⟨hstate, parser, r, hparser, hr, hafter⟩ := HTTPResponse.readInComplexBody_ok h
    cases r with
    | done k => cases hafter; exact absurd rfl hc
    | all p =>
        obtain ⟨hidle, hread⟩ := BodyParser.read_all y (fun p hp => hinv p (hp ▸ hparser)) hr
        cases hafter
        refine ⟨⟨rfl, hstate, rfl, fun p' hp' => hidle p' (Option.some.inj hp')⟩, ?_⟩
        exact HTTPResponse.readInComplexBody_all y hstate hparser hread
  error y h hsafe := HTTPResponse.readInComplexBody_error y h hsafe
  safe y h hc hsafe := by
    obtain ⟨hstate, parser, r, hparser, hr, hafter⟩ := HTTPResponse.readInComplexBody_ok h
    cases r with
    | done k => cases hafter; exact absurd rfl hc
    | all p =>
        cases hafter
        intro p' hp'
        cases hp'
        exact BodyParser.read_all_safely y hr (hsafe parser hparser)

end HTTPResponseParser

end Mahimahi
