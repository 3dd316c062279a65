import Mahimahi.Http.ChunkedBody

/-!
# Http — chunked bodies in pieces

A `SentBody` is a chunked body as RFC 2616 lets it be sent, with white space behind the sizes,
extensions, headers that are folded, and trailer fields.  `EndsAt` says that the parser, given the
pieces of a stream one by one, finds the end of the body in the piece in which it is.

* `readPieces_done`: what is read of a stream in one piece is read of it in any.
* `read_simple`, `read_tabbed`, `read_foldedLast`: what the parser reads of a body whose headers are
  on one line without a tab behind the size, whose sizes fit 32 bits with their CRLF, and that has a
  line of a trailer if there may be one; and what becomes of a tab and of a last chunk's header that
  goes on in a folded line.
* `answered_of_simple`, `simple_of_answered`: the parser finds the end of every such body, and of no
  other body but by luck, when the header of a chunk is folded or its size needs more than 32 bits.
-/

open Fallible MachineInt

namespace Mahimahi

open Search Ezio Loops HTTPMessageSequence

/-! ### Bodies -/

/-- The header of a chunk: its size in base 16, and white space or an extension, which may go on in
folded lines. -/
structure ChunkHeader where
  digits : Bytes
  extension : Bytes
  folds : List Bytes
  digits_ne : digits ≠ []
  digits_hex : ∀ b ∈ digits, isDigit 16 b = true
  extension_line : IsLine extension
  extension_head : ∀ b ∈ extension.head?, b = 59 ∨ b = 32 ∨ b = 9
  folds_line : ∀ f ∈ folds, IsLine f ∧ (f.head? = some 32 ∨ f.head? = some 9)

namespace ChunkHeader

def size (h : ChunkHeader) : Nat := ofDigits 16 h.digits

def line (h : ChunkHeader) : Bytes := h.digits ++ h.extension

def text (h : ChunkHeader) : Bytes := h.line ++ (CRLF ++ h.folds.flatMap (· ++ CRLF))

/-- The header is one line, and no tab is behind its size. -/
structure Plain (h : ChunkHeader) : Prop where
  unfolded : h.folds = []
  no_tab : h.extension.head? ≠ some 9

/-- The first line of the header, as the parser reads it. -/
def toLine (h : ChunkHeader) (hp : h.extension.head? ≠ some 9) : ChunkLine where
  digits := h.digits
  extension := h.extension
  digits_ne := h.digits_ne
  digits_hex := h.digits_hex
  extension_line := h.extension_line
  extension_head b hb := by
    rcases h.extension_head b hb with h₁ | h₁ | h₁
    · exact .inl h₁
    · exact .inr h₁
    · exact absurd (h₁ ▸ hb) hp

theorem text_of_unfolded {h : ChunkHeader} (hf : h.folds = []) : h.text = h.line ++ CRLF := by
  rw [text, hf, List.flatMap_nil, List.append_nil]

theorem isLine (h : ChunkHeader) : IsLine h.line := isLine_digits h.digits_hex h.extension_line

end ChunkHeader

structure SentChunk extends ChunkHeader where
  data : Bytes
  size_eq : toChunkHeader.size = data.length
  data_ne : data ≠ []

def SentChunk.text (c : SentChunk) : Bytes := c.toChunkHeader.text ++ (c.data ++ CRLF)

structure SentBody where
  chunks : List SentChunk
  last : ChunkHeader
  last_zero : last.size = 0
  /-- the lines of the trailer fields, which may be folded -/
  trailer : List Bytes
  trailer_line : ∀ t ∈ trailer, t ≠ [] ∧ IsLine t

namespace SentBody

def text (b : SentBody) : Bytes :=
  b.chunks.flatMap SentChunk.text ++ (b.last.text ++ (b.trailer.flatMap (· ++ CRLF) ++ CRLF))

/-- The lines behind the first line of the last chunk's header: those that go on with it, and the
trailer. -/
def ending (b : SentBody) : List Bytes := b.last.folds ++ b.trailer

end SentBody

/-- A chunk that is read as it was sent. -/
def SentChunk.Good (k : SentChunk) : Prop := k.toChunkHeader.Plain ∧ k.data.length + 2 < 2 ^ 32

namespace SentBody

/-- What the parser reads as it was sent.  A parser for trailers looks for CRLF CRLF behind the last
chunk's first line, and takes a line that goes on with the header for a trailer field. -/
structure Simple (trailersEnabled : Bool) (b : SentBody) : Prop where
  good : ∀ k ∈ b.chunks, k.Good
  no_tab : b.last.extension.head? ≠ some 9
  unfolded : trailersEnabled = false → b.last.folds = []
  trailer : trailersEnabled = true → b.ending ≠ []

/-- Of the first chunk that is not good, the parser takes a folded line for the data, or reads
another size. -/
def OutOfStep (b : SentBody) : Prop :=
  ∃ before k after, b.chunks = before ++ k :: after ∧ (∀ g ∈ before, g.Good) ∧
    k.extension.head? ≠ some 9 ∧ (k.folds ≠ [] ∨ 2 ^ 32 ≤ k.data.length)

end SentBody

/-! ### Reading in pieces -/

namespace ChunkedBodyParser

/-- `read` of one piece after another, up to an answer that is not `npos`: how many pieces are in
front of that one, and the answer. -/
def readPieces : List Bytes → ChunkedBodyParser → Except HTTPError (Option (Nat × Nat))
  | [], _ => .ok none
  | x :: xs, p => do
      match ← p.read x with
      | .all p => (readPieces xs p).map (Option.map fun r => (r.1 + 1, r.2))
      | .done n => return some (0, n)

/-- The answer is `npos` up to the piece with the last of `len` bytes, and there it is how many of
them are in that piece. -/
def EndsAt (pieces : List Bytes) (len : Nat) (p : ChunkedBodyParser) : Prop :=
  ∃ before piece after n, pieces = before ++ piece :: after ∧ before.flatten.length + n = len ∧
    0 < n ∧ n ≤ piece.length ∧ p.readPieces pieces = .ok (some (before.length, n))

variable {p : ChunkedBodyParser} {pieces : List Bytes} {n : Nat}

theorem read_pos {b : Bytes} (h : p.read b = .ok (.done n)) : 0 < n := by
  obtain ⟨r, -, h⟩ := bind_ok.mp h
  cases r with
  | pending c => cases h
  | found parsedSoFar =>
      obtain ⟨⟨⟩, hlt, h⟩ := bind_ok.mp h
      have hlt' : p.ackedSoFar < parsedSoFar := assert_ok.mp hlt
      cases h
      omega

/-- **A body that is read in one piece is read in any.** -/
theorem readPieces_done : ∀ {pieces : List Bytes} {p : ChunkedBodyParser} {n : Nat}, p.Acked →
    p.read pieces.flatten = .ok (.done n) → (p.toChunks.append pieces.flatten).NoWrap →
      p.EndsAt pieces n
  | [], p, n, hacked, hread, _ => by
      have hle : n ≤ 0 := read_le hacked hread
      exact absurd (read_pos hread) (Nat.not_lt.mpr hle)
  | x :: xs, p, n, hacked, hread, hwrap => by
      rw [List.flatten_cons] at hread hwrap
      cases hx : p.read x with
      | error e =>
          obtain ⟨e', he'⟩ := read_error xs.flatten hx hwrap
          cases hread.symm.trans he'
      | ok r =>
          cases r with
          | done k =>
              cases hread.symm.trans (read_done xs.flatten hx)
              refine ⟨[], x, xs, n, rfl, Nat.zero_add n, read_pos hx, read_le hacked hx, ?_⟩
              rw [readPieces, hx]
              rfl
          | all p' =>
              -- the rest is read as it would be behind `x`
              obtain ⟨hacked', hrest⟩ := read_all xs.flatten hacked hx
              rw [hread] at hrest
              obtain ⟨r, hr, hbehind⟩ := of_map_ok hrest.symm
              cases r with
              | all p'' => cases hbehind
              | done k =>
                  cases hbehind
                  obtain ⟨before, piece, after, m, rfl, hlen, hpos, hle, hpieces⟩ :=
                    readPieces_done hacked' hr fun d hd =>
                      hwrap d ((read_all_reaches xs.flatten hx).trans hd)
                  refine ⟨x :: before, piece, after, m, rfl, ?_, hpos, hle, ?_⟩
                  · rw [List.flatten_cons, List.length_append, ← hlen, Nat.add_assoc]
                  · rw [readPieces, hx, ok_bind]
                    dsimp only
                    rw [hpieces]
                    rfl

end ChunkedBodyParser

/-! ### The trailer -/

theorem two_le_length_trailer {trailer : List Bytes} (h : trailer ≠ []) :
    2 ≤ (trailer.flatMap (· ++ CRLF)).length := by
  obtain ⟨t, ts, rfl⟩ := List.exists_cons_of_ne_nil h
  rw [List.flatMap_cons, List.length_append, List.length_append, show CRLF.length = 2 from rfl]
  omega

/-- The empty line ends the trailer: no line in front of it is empty. -/
theorem find_trailer (rest : Bytes) : ∀ {trailer : List Bytes}, trailer ≠ [] →
    (∀ t ∈ trailer, t ≠ [] ∧ IsLine t) →
      find (CRLF ++ CRLF) (trailer.flatMap (· ++ CRLF) ++ (CRLF ++ rest)) =
        some ((trailer.flatMap (· ++ CRLF)).length - 2)
  | [], hne, _ => absurd rfl hne
  | t :: ts, _, hlines => by
      obtain ⟨⟨-, ht⟩, hrest⟩ := List.forall_mem_cons.mp hlines
      obtain ⟨more, hmore⟩ : ∃ more, ts.flatMap (· ++ CRLF) ++ (CRLF ++ rest) = more := ⟨_, rfl⟩
      have htext : (t :: ts).flatMap (· ++ CRLF) ++ (CRLF ++ rest) = t ++ (CRLF ++ more) := by
        rw [List.flatMap_cons, ← hmore]
        simp only [List.append_assoc]
      have hlength : ((t :: ts).flatMap (· ++ CRLF)).length =
          t.length + 2 + (ts.flatMap (· ++ CRLF)).length := by
        rw [List.flatMap_cons, List.length_append, List.length_append]
        rfl
      have hbefore : ∀ j < t.length, ¬ CRLF ++ CRLF <+: (t ++ (CRLF ++ more)).drop j :=
        fun j hj hpre => (find_eq_some_iff.mp (ht.find more)).2.2 j hj
          ((List.prefix_append CRLF CRLF).trans hpre)
      rw [htext, find_append_of_before hbefore, hlength]
      cases ts with
      | nil =>
          have hmore' : more = CRLF ++ rest := by
            rw [← hmore]
            rfl
          have hfind : find (CRLF ++ CRLF) (CRLF ++ more) = some 0 := by
            rw [hmore', ← List.append_assoc, find_eq_some_iff]
            exact ⟨Nat.zero_le _, List.prefix_append _ _, fun j hj => absurd hj (Nat.not_lt_zero j)⟩
          rw [hfind, List.flatMap_nil, List.length_nil, Option.map_some]
          exact congrArg some (by omega)
      | cons u us =>
          -- the next line is not empty, so the CRLF in front of it does not end the trailer
          obtain ⟨⟨hu, huline⟩, -⟩ := List.forall_mem_cons.mp hrest
          have hmore' : more = u ++ (CRLF ++ (us.flatMap (· ++ CRLF) ++ (CRLF ++ rest))) := by
            rw [← hmore, List.flatMap_cons]
            simp only [List.append_assoc]
          have hno : ¬ CRLF <+: more := by
            have hfind := find_eq_some_iff.mp (hmore' ▸ huline.find _)
            exact hfind.2.2 0 (List.length_pos_iff.mpr hu)
          have hcrlf : ∀ j < CRLF.length, ¬ CRLF ++ CRLF <+: (CRLF ++ more).drop j := by
            intro j hj hpre
            match j, hj with
            | 0, _ => exact hno ((List.prefix_append_right_inj CRLF).mp hpre)
            | 1, _ => exact absurd (List.cons_prefix_cons.mp hpre).1 (by decide)
          rw [find_append_of_before hcrlf, ← hmore,
            find_trailer rest (List.cons_ne_nil u us) hrest]
          have hpos := two_le_length_trailer (List.cons_ne_nil u us)
          rw [Option.map_some, Option.map_some, show CRLF.length = 2 from rfl]
          exact congrArg some (by omega)

namespace Chunks

variable {c : Chunks} {rest : Bytes}

/-- The chunk of size 0, the trailer and the empty line end the body. -/
theorem run_trailer (last : ChunkLine) (hlast : last.size = 0) {trailer : List Bytes}
    (hne : trailer ≠ []) (hlines : ∀ t ∈ trailer, t ≠ [] ∧ IsLine t) (hstate : c.state = .chunkHdr)
    (htrailers : c.trailersEnabled = true)
    (hbuffer : c.parserBuffer =
      last.line ++ (CRLF ++ (trailer.flatMap (· ++ CRLF) ++ (CRLF ++ rest)))) :
    loop.run c = .ok (.found (c.parsedSoFar +
        (last.line ++ (CRLF ++ (trailer.flatMap (· ++ CRLF) ++ CRLF))).length)) ∧ c.NoWrap := by
  have hline := step_line last hstate hbuffer (by omega)
  rw [hlast, if_pos rfl] at hline
  obtain ⟨d, hd⟩ : ∃ d : Chunks, d = { c with
    currentChunkSize := 0
    state := .trailer
    parsedSoFar := c.parsedSoFar + (last.line.length + 2)
    parserBuffer := trailer.flatMap (· ++ CRLF) ++ (CRLF ++ rest) } := ⟨_, rfl⟩
  rw [← hd] at hline
  have hdstate : d.state = .trailer := hd ▸ rfl
  have hneedle : d.needle = CRLF ++ CRLF := by
    rw [needle, hd]
    exact if_pos htrailers
  have hpos := two_le_length_trailer hne
  have hend : d.step = .ok (.stop (.found (c.parsedSoFar +
      (last.line ++ (CRLF ++ (trailer.flatMap (· ++ CRLF) ++ CRLF))).length))) := by
    have hfind : find d.needle d.parserBuffer =
        some ((trailer.flatMap (· ++ CRLF)).length - 2) := by
      rw [hneedle, hd]
      exact find_trailer rest hne hlines
    rw [step_trailer hdstate, hfind]
    dsimp only
    rw [hneedle, hd]
    simp only [List.length_append, show CRLF.length = 2 from rfl]
    refine congrArg (fun n => Except.ok (Next.stop (ChunksResult.found n))) ?_
    omega
  refine ⟨?_, noWrap_of_more hline (not_wrapPasses fun h => ?_) fun e he => ?_⟩
  · rw [Loop.run_more (show loop.step c = _ from hline), Loop.run_stop hend]
  · rw [hstate] at h
    cases h
  · rw [he.eq_of_end fun s' hs' => by cases hend.symm.trans hs']
    exact not_wrapPasses fun h => by rw [hdstate] at h; cases h

end Chunks

/-! ### Bodies that are read -/

/-- Good chunks are chunks as the parser reads them. -/
theorem exists_chunks {chunks : List SentChunk} (h : ∀ k ∈ chunks, k.Good) :
    ∃ ks : List Chunk, ks.flatMap Chunk.text = chunks.flatMap SentChunk.text ∧
      ∀ k ∈ ks, k.data.length + 2 < 2 ^ 32 := by
  induction chunks with
  | nil => exact ⟨[], rfl, fun k hk => by cases hk⟩
  | cons k chunks ih =>
      obtain ⟨⟨hplain, hsmall⟩, hrest⟩ := List.forall_mem_cons.mp h
      obtain ⟨ks, htext, hks⟩ := ih hrest
      refine ⟨{ k.toLine hplain.no_tab with
        data := k.data, size_eq := k.size_eq, data_ne := k.data_ne } :: ks, ?_,
        List.forall_mem_cons.mpr ⟨hsmall, hks⟩⟩
      rw [List.flatMap_cons, List.flatMap_cons, htext, SentChunk.text,
        ChunkHeader.text_of_unfolded hplain.unfolded, Chunk.text]
      simp only [List.append_assoc]
      rfl

/-- The parser after the chunks that it reads. -/
theorem run_goodChunks {chunks : List SentChunk} (h : ∀ k ∈ chunks, k.Good)
    (trailersEnabled : Bool) (rest : Bytes) :
    ∃ c : Chunks, c.state = .chunkHdr ∧ c.trailersEnabled = trailersEnabled ∧
      c.parserBuffer = rest ∧ c.parsedSoFar = (chunks.flatMap SentChunk.text).length ∧
      Chunks.loop.run (Chunks.append { trailersEnabled }
        (chunks.flatMap SentChunk.text ++ rest)) = Chunks.loop.run c ∧
      (c.NoWrap → (Chunks.append { trailersEnabled }
        (chunks.flatMap SentChunk.text ++ rest)).NoWrap) := by
  obtain ⟨ks, htext, hks⟩ := exists_chunks h
  obtain ⟨c, hstate, htrailers, hbuffer, hparsed, hrun, hwrap⟩ := @Chunks.run_chunks rest ks
    hks (Chunks.append { trailersEnabled } (ks.flatMap Chunk.text ++ rest)) rfl rfl
  rw [htext] at hparsed hrun hwrap
  refine ⟨c, hstate, htrailers, hbuffer, ?_, hrun, hwrap⟩
  rw [hparsed, Chunks.append_parsed]
  exact Nat.zero_add _

namespace SentBody

variable {b : SentBody} {trailersEnabled : Bool}

theorem text_eq (b : SentBody) : b.text = b.chunks.flatMap SentChunk.text ++
    (b.last.line ++ (CRLF ++ (b.ending.flatMap (· ++ CRLF) ++ CRLF))) := by
  rw [text, ChunkHeader.text, ending, List.flatMap_append]
  simp only [List.append_assoc]

theorem ending_line (b : SentBody) : ∀ t ∈ b.ending, t ≠ [] ∧ IsLine t := by
  intro t ht
  rcases List.mem_append.mp ht with ht | ht
  · obtain ⟨hline, hhead⟩ := b.last.folds_line t ht
    refine ⟨?_, hline⟩
    rintro rfl
    rcases hhead with hhead | hhead <;> cases hhead
  · exact b.trailer_line t ht

/-- Where the loop finds an end, `read` answers it. -/
theorem read_of_found {s : Bytes} {n : Nat} (hpos : 0 < n)
    (h : Chunks.loop.run (Chunks.append { trailersEnabled } s) = .ok (.found n)) :
    ({ trailersEnabled } : ChunkedBodyParser).read s = .ok (.done n) := by
  rw [ChunkedBodyParser.read, h, ok_bind]
  dsimp only
  rw [assert_pos hpos]
  rfl

/-- **A simple body is read as it was sent**, and nothing of what follows. -/
theorem read_simple (hdomain : trailersEnabled = false → b.trailer = [])
    (h : b.Simple trailersEnabled) (rest : Bytes) :
    ({ trailersEnabled } : ChunkedBodyParser).read (b.text ++ rest) = .ok (.done b.text.length) ∧
      (Chunks.append { trailersEnabled } (b.text ++ rest)).NoWrap := by
  obtain ⟨l, hl⟩ : ∃ l, l = b.last.toLine h.no_tab := ⟨_, rfl⟩
  have hlsize : l.size = 0 := hl ▸ b.last_zero
  have hlline : l.line = b.last.line := hl ▸ rfl
  obtain ⟨c, hstate, htrailers, hbuffer, hparsed, hrun, hwrap⟩ := run_goodChunks h.good
    trailersEnabled (l.line ++ (CRLF ++ (b.ending.flatMap (· ++ CRLF) ++ (CRLF ++ rest))))
  have htext : b.text ++ rest = b.chunks.flatMap SentChunk.text ++
      (l.line ++ (CRLF ++ (b.ending.flatMap (· ++ CRLF) ++ (CRLF ++ rest)))) := by
    rw [text_eq, hlline]
    simp only [List.append_assoc]
  have hend : Chunks.loop.run c = .ok (.found b.text.length) ∧ c.NoWrap := by
    have hlength : b.text.length = c.parsedSoFar +
        (l.line ++ (CRLF ++ (b.ending.flatMap (· ++ CRLF) ++ CRLF))).length := by
      rw [text_eq, hlline, hparsed, List.length_append]
    rw [hlength]
    cases htrailersEnabled : trailersEnabled with
    | false =>
        have hnone : b.ending = [] := by
          rw [ending, h.unfolded htrailersEnabled, hdomain htrailersEnabled, List.append_nil]
        rw [hnone, List.flatMap_nil, List.nil_append] at hbuffer ⊢
        exact Chunks.run_last l hlsize hstate (htrailers.trans htrailersEnabled) hbuffer
    | true =>
        exact Chunks.run_trailer l hlsize (h.trailer htrailersEnabled) b.ending_line hstate
          (htrailers.trans htrailersEnabled) hbuffer
  have hpos : 0 < b.text.length := by
    rw [text_eq]
    simp only [List.length_append, show CRLF.length = 2 from rfl]
    omega
  rw [← htext] at hrun hwrap
  exact ⟨read_of_found hpos (hrun.trans hend.1), hwrap hend.2⟩

/-- However the body and what follows are cut, the parser finds the end of the body. -/
def Answered (trailersEnabled : Bool) (b : SentBody) : Prop :=
  ∀ rest pieces, Cut (b.text ++ rest) pieces →
    ({ trailersEnabled } : ChunkedBodyParser).EndsAt pieces b.text.length

/-- **A simple body is answered.** -/
theorem answered_of_simple (hdomain : trailersEnabled = false → b.trailer = [])
    (h : b.Simple trailersEnabled) : b.Answered trailersEnabled := by
  rintro rest pieces ⟨hpieces, -⟩
  obtain ⟨hread, hwrap⟩ := read_simple hdomain h rest
  rw [← hpieces] at hread hwrap
  exact ChunkedBodyParser.readPieces_done rfl hread hwrap

end SentBody

/-! ### Bodies that are not -/

/-- A tab is not cut off the size. -/
theorem ChunkHeader.getChunkSize_tab {h : ChunkHeader} (htab : h.extension.head? = some 9) :
    ∃ e, getChunkSize (h.line ++ CRLF) = .error e := by
  obtain ⟨ext, hext⟩ : ∃ ext, h.extension = 9 :: ext := by
    cases hx : h.extension with
    | nil => rw [hx] at htab; cases htab
    | cons b ext => rw [hx] at htab; cases htab; exact ⟨ext, rfl⟩
  have hmem : ∀ {b : UInt8}, isDigit 16 b = false → b ≠ 9 → b ∉ h.digits ++ [9] := by
    intro b hb hne hin
    rcases List.mem_append.mp hin with hin | hin
    · rw [h.digits_hex b hin] at hb
      cases hb
    · exact hne (List.mem_singleton.mp hin)
  have htext : h.line ++ CRLF = (h.digits ++ [9]) ++ (ext ++ CRLF) := by
    rw [line, hext]
    simp only [List.append_assoc]
    rfl
  have hcrlf : find CRLF (h.line ++ CRLF) = some h.line.length := h.isLine.find_end
  have hlength : h.line.length = ext.length + (h.digits ++ [9]).length := by
    rw [line, hext, List.length_append, List.length_append, List.length_cons, List.length_singleton]
    omega
  -- the semicolon, the CRLF and the space are all behind the tab
  obtain ⟨k, hk⟩ : ∃ k, (find (ascii ";") (h.line ++ CRLF)).or (find CRLF (h.line ++ CRLF)) =
      some ((h.digits ++ [9]).length + k) := by
    rw [hcrlf, ascii_semicolon, htext, hlength]
    exact ChunkLine.exists_sizeEnd (hmem (by decide) (by decide))
  have htake : (h.line ++ CRLF).take ((h.digits ++ [9]).length + k) =
      h.digits ++ [9] ++ (ext ++ CRLF).take k := by rw [htext, List.take_length_add_append]
  obtain ⟨t, ht⟩ : ∃ t, getChunkSize (h.line ++ CRLF) =
      (readInteger 16 (h.digits ++ 9 :: t)).map fun size => toU32 size := by
    cases hspace : find [32] ((ext ++ CRLF).take k) with
    | none =>
        refine ⟨(ext ++ CRLF).take k, getChunkSize_eq hk ?_⟩
        rw [ascii_space, htake, find_singleton_append (hmem (by decide) (by decide)), hspace,
          List.append_assoc, List.singleton_append]
        rfl
    | some j =>
        refine ⟨((ext ++ CRLF).take k).take j, getChunkSize_eq hk ?_⟩
        rw [ascii_space, htake, find_singleton_append (hmem (by decide) (by decide)), hspace,
          Option.map_some, Nat.add_comm]
        dsimp only
        rw [List.take_length_add_append, List.append_assoc, List.singleton_append]
  obtain ⟨e, he⟩ := myatoi_hex_refused (t := t) h.digits_ne h.digits_hex
    (show isDigit 16 9 = false by decide) (by decide)
  refine ⟨.invalidInteger e, ?_⟩
  rw [ht, readInteger, he]
  rfl

namespace Chunks

variable {c : Chunks} {rest : Bytes}

theorem step_tab {h : ChunkHeader} (htab : h.extension.head? = some 9) (hstate : c.state = .chunkHdr)
    (hbuffer : c.parserBuffer = h.line ++ (CRLF ++ rest)) : ∃ e, c.step = .error e := by
  obtain ⟨e, he⟩ := h.getChunkSize_tab htab
  have htake : (h.line ++ (CRLF ++ rest)).take (h.line.length + 2) = h.line ++ CRLF := by
    rw [List.take_length_add_append]
    rfl
  refine ⟨e, ?_⟩
  rw [step_chunkHdr hstate, hbuffer, h.isLine.find]
  dsimp only
  rw [htake, he]
  rfl

/-- With one byte of a chunk whose size wraps, its end is looked for. -/
theorem step_wrapped {b : UInt8} (hstate : c.state = .chunk) (hbuffer : c.parserBuffer = [b])
    (hlow : 2 ^ 32 ≤ c.currentChunkSize + 2) (hhigh : c.currentChunkSize < 2 ^ 32) :
    ∃ e, c.step = .error e := by
  have hneeded : c.needed ≤ 1 := by
    rw [needed, toU32]
    omega
  refine ⟨.outOfRange, ?_⟩
  rw [step_chunk hstate, hbuffer, if_pos ⟨List.cons_ne_nil _ _, hneeded⟩, endChunk, hbuffer, substr,
    if_pos (by rw [List.length_singleton]; omega)]
  rfl

end Chunks

/-- **A tab is refused**, whatever follows. -/
theorem read_tabbed {chunks : List SentChunk} (hgood : ∀ k ∈ chunks, k.Good) {h : ChunkHeader}
    (htab : h.extension.head? = some 9) (trailersEnabled : Bool) (rest : Bytes) :
    (∃ e, ({ trailersEnabled } : ChunkedBodyParser).read
        (chunks.flatMap SentChunk.text ++ (h.line ++ (CRLF ++ rest))) = .error e) ∧
      (Chunks.append { trailersEnabled }
        (chunks.flatMap SentChunk.text ++ (h.line ++ (CRLF ++ rest)))).NoWrap := by
  obtain ⟨c, hstate, -, hbuffer, -, hrun, hwrap⟩ :=
    run_goodChunks hgood trailersEnabled (h.line ++ (CRLF ++ rest))
  obtain ⟨e, he⟩ := Chunks.step_tab htab hstate hbuffer
  refine ⟨⟨e, ?_⟩, hwrap fun d hd => ?_⟩
  · rw [ChunkedBodyParser.read, hrun, Loop.run_error he]
    rfl
  · rw [hd.eq_of_end fun s' hs' => by cases he.symm.trans hs']
    exact Chunks.not_wrapPasses fun h => by rw [hstate] at h; cases h

/-- **A folded line ends the body** when it goes on with the last chunk's header and there are no
trailers: what is behind it is left over. -/
theorem read_foldedLast {b : SentBody} (hgood : ∀ k ∈ b.chunks, k.Good)
    (htab : b.last.extension.head? ≠ some 9) (hfolds : b.last.folds ≠ []) :
    ∃ x y, b.text = x ++ y ∧ x ≠ [] ∧ y ≠ [] ∧ ∀ rest,
      ({ trailersEnabled := false } : ChunkedBodyParser).read (x ++ rest) = .ok (.done x.length) ∧
        (Chunks.append { trailersEnabled := false } (x ++ rest)).NoWrap := by
  obtain ⟨f, fs, hf⟩ := List.exists_cons_of_ne_nil hfolds
  obtain ⟨hline, -⟩ := b.last.folds_line f (hf ▸ List.mem_cons_self)
  obtain ⟨l, hl⟩ : ∃ l, l = b.last.toLine htab := ⟨_, rfl⟩
  have hlsize : l.size = 0 := hl ▸ b.last_zero
  have hlline : l.line = b.last.line := hl ▸ rfl
  refine ⟨b.chunks.flatMap SentChunk.text ++ (l.line ++ (CRLF ++ (f ++ CRLF))),
    (fs ++ b.trailer).flatMap (· ++ CRLF) ++ CRLF, ?_, by simp [CRLF], by simp [CRLF],
    fun rest => ?_⟩
  · rw [SentBody.text_eq, SentBody.ending, hf, hlline, List.cons_append, List.flatMap_cons]
    simp only [List.append_assoc]
  · obtain ⟨c, hstate, htrailers, hbuffer, hparsed, hrun, hwrap⟩ := run_goodChunks hgood false
      (l.line ++ (CRLF ++ (f ++ (CRLF ++ rest))))
    obtain ⟨hend, hnoWrap⟩ := Chunks.run_ending l hlsize hline hstate htrailers hbuffer
    rw [hparsed, ← List.length_append] at hend
    simp only [List.append_assoc]
    exact ⟨SentBody.read_of_found (by simp [CRLF]) (hrun.trans hend), hwrap hnoWrap⟩

/-- The first of a list that is not as the others should be. -/
theorem exists_first_not {α : Type} {P : α → Prop} {l : List α} (h : ¬ ∀ a ∈ l, P a) :
    ∃ before a after, l = before ++ a :: after ∧ (∀ b ∈ before, P b) ∧ ¬ P a := by
  induction l with
  | nil => exact absurd (List.forall_mem_nil P) h
  | cons a l ih =>
      by_cases ha : P a
      · obtain ⟨before, a', after, rfl, hbefore, hbad⟩ :=
          ih fun hall => h (List.forall_mem_cons.mpr ⟨ha, hall⟩)
        exact ⟨a :: before, a', after, rfl, List.forall_mem_cons.mpr ⟨ha, hbefore⟩, hbad⟩
      · exact ⟨[], a, l, rfl, List.forall_mem_nil _, ha⟩

namespace SentBody

variable {b : SentBody} {trailersEnabled : Bool}

/-- A part of the body on which the parser fails. -/
theorem not_answered_of_error {x y : Bytes} (htext : b.text = x ++ y) (hne : x ≠ [])
    {e : HTTPError} (h : ({ trailersEnabled } : ChunkedBodyParser).read x = .error e) :
    ¬ b.Answered trailersEnabled := by
  intro hall
  obtain ⟨pieces, hpieces⟩ : ∃ pieces, Cut (b.text ++ []) (x :: pieces) := by
    rw [List.append_nil, htext]
    cases hy : y with
    | nil => exact ⟨[], by simp, fun z hz => List.mem_singleton.mp hz ▸ hne⟩
    | cons c y =>
        refine ⟨[c :: y], by simp, fun z hz => ?_⟩
        rcases List.mem_cons.mp hz with rfl | hz
        · exact hne
        · exact List.mem_singleton.mp hz ▸ List.cons_ne_nil c y
  obtain ⟨before, piece, after, n, -, -, -, -, hread⟩ := hall [] _ hpieces
  rw [ChunkedBodyParser.readPieces, h] at hread
  cases hread

/-- The chunks that the parser reads, and what it fails on behind them. -/
theorem not_answered_of_step {chunks : List SentChunk} (hgood : ∀ k ∈ chunks, k.Good) {x y : Bytes}
    (htext : b.text = chunks.flatMap SentChunk.text ++ (x ++ y)) (hne : x ≠ [])
    (h : ∀ c : Chunks, c.state = .chunkHdr → c.parserBuffer = x →
      ∃ e, Chunks.loop.run c = .error e) : ¬ b.Answered trailersEnabled := by
  obtain ⟨c, hstate, -, hbuffer, -, hrun, -⟩ := run_goodChunks hgood trailersEnabled x
  obtain ⟨e, he⟩ := h c hstate hbuffer
  refine not_answered_of_error (x := chunks.flatMap SentChunk.text ++ x) (y := y) ?_
    (List.append_ne_nil_of_right_ne_nil _ hne) (e := e) ?_
  · rw [htext, List.append_assoc]
  · rw [ChunkedBodyParser.read, hrun, he]
    rfl

theorem not_answered_of_tab {chunks : List SentChunk} (hgood : ∀ k ∈ chunks, k.Good)
    {h : ChunkHeader} {y : Bytes} (htext : b.text = chunks.flatMap SentChunk.text ++ (h.text ++ y))
    (htab : h.extension.head? = some 9) : ¬ b.Answered trailersEnabled := by
  rw [ChunkHeader.text, List.append_assoc, List.append_assoc] at htext
  obtain ⟨⟨e, he⟩, -⟩ := read_tabbed hgood htab trailersEnabled _
  rw [← htext] at he
  refine not_answered_of_error (List.append_nil _).symm ?_ he
  rw [htext]
  simp [CRLF]

theorem not_answered_of_wrap {chunks : List SentChunk} (hgood : ∀ k ∈ chunks, k.Good)
    {k : SentChunk} {y : Bytes} (htext : b.text = chunks.flatMap SentChunk.text ++ (k.text ++ y))
    (hplain : k.toChunkHeader.Plain) (hlow : 2 ^ 32 ≤ k.data.length + 2)
    (hhigh : k.data.length < 2 ^ 32) : ¬ b.Answered trailersEnabled := by
  obtain ⟨d, ds, hdata⟩ := List.exists_cons_of_ne_nil k.data_ne
  have hsplit : k.text ++ y = (k.toLine hplain.no_tab).line ++ (CRLF ++ [d]) ++ (ds ++ CRLF ++ y) := by
    rw [SentChunk.text, ChunkHeader.text_of_unfolded hplain.unfolded, hdata]
    simp only [List.append_assoc]
    rfl
  rw [hsplit] at htext
  refine not_answered_of_step hgood htext
    (List.append_ne_nil_of_right_ne_nil _ (by simp)) fun c hstate hbuffer => ?_
  have hsize : (k.toLine hplain.no_tab).size = k.data.length := k.size_eq
  have hline := Chunks.step_line (k.toLine hplain.no_tab) hstate hbuffer (by omega)
  rw [if_neg (by omega)] at hline
  obtain ⟨e, he⟩ := Chunks.step_wrapped (b := d) (c := { c with
    currentChunkSize := (k.toLine hplain.no_tab).size
    state := .chunk
    parsedSoFar := c.parsedSoFar + ((k.toLine hplain.no_tab).line.length + 2)
    parserBuffer := [d] }) rfl rfl (by dsimp only; omega) (by dsimp only; omega)
  exact ⟨e, (Loop.run_more (show Chunks.loop.step c = _ from hline)).trans (Loop.run_error he)⟩

/-- The CRLF of an empty trailer is not the end that a parser for trailers looks for. -/
theorem not_answered_of_noTrailer (hgood : ∀ k ∈ b.chunks, k.Good)
    (htab : b.last.extension.head? ≠ some 9) (hnone : b.ending = []) : ¬ b.Answered true := by
  obtain ⟨l, hl⟩ : ∃ l, l = b.last.toLine htab := ⟨_, rfl⟩
  have hlsize : l.size = 0 := hl ▸ b.last_zero
  have htext : b.text = b.chunks.flatMap SentChunk.text ++ (l.line ++ (CRLF ++ CRLF)) := by
    rw [text_eq, hnone, hl, List.flatMap_nil, List.nil_append]
    rfl
  obtain ⟨c, hstate, htrailers, hbuffer, -, hrun, -⟩ :=
    run_goodChunks hgood true (l.line ++ (CRLF ++ CRLF))
  have hline := Chunks.step_line l hstate hbuffer (by omega)
  rw [hlsize, if_pos rfl] at hline
  obtain ⟨d, hd⟩ : ∃ d : Chunks, d = { c with
    currentChunkSize := 0
    state := .trailer
    parsedSoFar := c.parsedSoFar + (l.line.length + 2)
    parserBuffer := CRLF } := ⟨_, rfl⟩
  rw [← hd] at hline
  have hwait : d.step = .ok (.stop (.pending d)) := by
    have hneedle : d.needle = CRLF ++ CRLF := by
      rw [Chunks.needle, hd]
      exact if_pos htrailers
    have hbuffer' : d.parserBuffer = CRLF := by rw [hd]
    rw [Chunks.step_trailer (by rw [hd]), hneedle, hbuffer']
    rfl
  have hpending : Chunks.loop.run (Chunks.append { trailersEnabled := true } b.text) =
      .ok (.pending d) := by
    rw [htext, hrun, Loop.run_more (show Chunks.loop.step c = _ from hline), Loop.run_stop hwait]
  intro hall
  have hcut : Cut (b.text ++ []) [b.text] := by
    refine ⟨by simp, fun x hx => ?_⟩
    rw [List.mem_singleton.mp hx, htext]
    simp [CRLF]
  obtain ⟨before, piece, after, n, -, -, -, -, hread⟩ := hall [] _ hcut
  rw [ChunkedBodyParser.readPieces, ChunkedBodyParser.read, hpending] at hread
  cases hread

theorem not_answered_of_foldedLast (hgood : ∀ k ∈ b.chunks, k.Good)
    (htab : b.last.extension.head? ≠ some 9) (hfolds : b.last.folds ≠ []) :
    ¬ b.Answered false := by
  obtain ⟨x, y, htext, hx, hy, hread⟩ := read_foldedLast hgood htab hfolds
  intro hall
  have hne : b.text ≠ [] := htext ▸ List.append_ne_nil_of_left_ne_nil hx y
  obtain ⟨before, piece, after, n, hpieces, hlength, -, -, hanswer⟩ :=
    hall [] [b.text] ⟨by simp, List.forall_mem_singleton.mpr hne⟩
  rw [ChunkedBodyParser.readPieces, htext, (hread y).1] at hanswer
  obtain ⟨hbefore, rfl⟩ := Prod.mk.inj (Option.some.inj (Except.ok.inj hanswer))
  rw [List.length_eq_zero_iff.mp hbefore.symm, htext, List.length_append] at hlength
  have hpos := List.length_pos_iff.mpr hy
  simp only [List.flatten_nil, List.length_nil] at hlength
  omega

/-- **No other body is answered**, unless the parser gets out of step with it. -/
theorem simple_of_answered (h : b.Answered trailersEnabled) (hstep : ¬ b.OutOfStep) :
    b.Simple trailersEnabled := by
  have hgood : ∀ k ∈ b.chunks, k.Good := by
    by_contra hbad
    obtain ⟨before, k, after, hchunks, hbefore, hk⟩ := exists_first_not hbad
    obtain ⟨y, hy⟩ : ∃ y, b.text = before.flatMap SentChunk.text ++ (k.text ++ y) := by
      rw [text, hchunks, List.flatMap_append, List.flatMap_cons]
      simp only [List.append_assoc]
      exact ⟨_, rfl⟩
    by_cases htab : k.extension.head? = some 9
    · refine not_answered_of_tab (h := k.toChunkHeader) (y := k.data ++ CRLF ++ y) hbefore ?_ htab h
      rw [hy, SentChunk.text, List.append_assoc]
    · have hkept : k.folds = [] ∧ k.data.length < 2 ^ 32 := by
        by_contra hno
        rw [not_and_or, Nat.not_lt] at hno
        exact hstep ⟨before, k, after, hchunks, hbefore, htab, hno⟩
      have hplain : k.toChunkHeader.Plain := ⟨hkept.1, htab⟩
      exact not_answered_of_wrap hbefore hy hplain
        (Nat.le_of_not_lt fun hlt => hk ⟨hplain, hlt⟩) hkept.2 h
  have htab : b.last.extension.head? ≠ some 9 := fun htab =>
    not_answered_of_tab hgood (y := b.trailer.flatMap (· ++ CRLF) ++ CRLF) rfl htab h
  refine ⟨hgood, htab, fun hoff => ?_, fun hon hnone => ?_⟩
  · by_contra hfolds
    rw [hoff] at h
    exact not_answered_of_foldedLast hgood htab hfolds h
  · rw [hon] at h
    exact not_answered_of_noTrailer hgood htab hnone h

/-- **When the parser finds the end of a body**, however it is cut: when the body is simple, and of
no other body with which it keeps step. -/
theorem answered_iff (b : SentBody) (trailersEnabled : Bool)
    (hdomain : trailersEnabled = false → b.trailer = []) :
    (b.Simple trailersEnabled → b.Answered trailersEnabled) ∧
      (b.Answered trailersEnabled → b.Simple trailersEnabled ∨ b.OutOfStep) :=
  ⟨answered_of_simple hdomain, fun h =>
    or_iff_not_imp_right.mpr fun hstep => simple_of_answered h hstep⟩

/-! ### A body with a trailer field, and two that are not read -/

def plainHeader (digits : Bytes) (hne : digits ≠ []) (hhex : ∀ b ∈ digits, isDigit 16 b = true) :
    ChunkHeader where
  digits := digits
  extension := []
  folds := []
  digits_ne := hne
  digits_hex := hhex
  extension_line := .nil
  extension_head b hb := by cases hb
  folds_line f hf := by cases hf

def zeroHeader : ChunkHeader :=
  plainHeader [48] (List.cons_ne_nil _ _) (List.forall_mem_singleton.mpr (by decide))

/-- `3 ;a=b`, `abc`, `0`, `A: b` -/
def trailedBody : SentBody where
  chunks := [{ plainHeader [51] (List.cons_ne_nil _ _) (List.forall_mem_singleton.mpr (by decide))
    with
    extension := ascii " ;a=b"
    extension_line := by decide +kernel
    extension_head := by decide +kernel
    data := ascii "abc"
    size_eq := by decide +kernel
    data_ne := by decide +kernel }]
  last := zeroHeader
  last_zero := by decide
  trailer := [ascii "A: b"]
  trailer_line := by decide +kernel

theorem trailedBody_simple : trailedBody.Simple true where
  good := List.forall_mem_singleton.mpr ⟨⟨rfl, by decide +kernel⟩, by decide +kernel⟩
  no_tab := by decide
  unfolded h := by cases h
  trailer _ := List.cons_ne_nil _ _

theorem answered_iff_trailedBody :
    trailedBody.text = ascii "3 ;a=b\r\nabc\r\n0\r\nA: b\r\n\r\n" ∧
    trailedBody.Simple true ∧ trailedBody.Answered true :=
  ⟨by decide +kernel, trailedBody_simple,
    (answered_iff trailedBody true fun h => by cases h).1 trailedBody_simple⟩

/-- `3`, a tab, `;a=b`, `abc`, `0` -/
def tabbedBody : SentBody where
  chunks := [{ plainHeader [51] (List.cons_ne_nil _ _) (List.forall_mem_singleton.mpr (by decide))
    with
    extension := ascii "\t;a=b"
    extension_line := by decide +kernel
    extension_head := by decide +kernel
    data := ascii "abc"
    size_eq := by decide +kernel
    data_ne := by decide +kernel }]
  last := zeroHeader
  last_zero := by decide
  trailer := []
  trailer_line t ht := by cases ht

/-- `05;x=y`, `hello`, `0` -/
def helloBody : SentBody where
  chunks := [{
    digits := ascii "05"
    extension := ascii ";x=y"
    folds := []
    data := ascii "hello"
    digits_ne := by decide +kernel
    digits_hex := List.all_eq_true.mp (by decide +kernel)
    extension_line := by decide +kernel
    extension_head := by decide +kernel
    folds_line := fun f hf => by cases hf
    size_eq := by decide +kernel
    data_ne := by decide +kernel }]
  last := zeroHeader
  last_zero := by decide
  trailer := []
  trailer_line t ht := by cases ht

/-- `3;a=b`, ` ;c=d`, `abc`, `0` -/
def foldedBody : SentBody where
  chunks := [{
    digits := ascii "3"
    extension := ascii ";a=b"
    folds := [ascii " ;c=d"]
    data := ascii "abc"
    digits_ne := by decide +kernel
    digits_hex := List.all_eq_true.mp (by decide +kernel)
    extension_line := by decide +kernel
    extension_head := by decide +kernel
    folds_line := List.forall_mem_singleton.mpr ⟨by decide +kernel, .inl (by decide +kernel)⟩
    size_eq := by decide +kernel
    data_ne := by decide +kernel }]
  last := zeroHeader
  last_zero := by decide
  trailer := []
  trailer_line t ht := by cases ht

/-- `4;a`, ` xxx`, and four bytes that are read as a chunk of one byte, `0` -/
def luckyBody : SentBody where
  chunks := [{
    digits := ascii "4"
    extension := ascii ";a"
    folds := [ascii " xxx"]
    data := ascii "1\r\nd"
    digits_ne := by decide +kernel
    digits_hex := List.all_eq_true.mp (by decide +kernel)
    extension_line := by decide +kernel
    extension_head := by decide +kernel
    folds_line := List.forall_mem_singleton.mpr ⟨by decide +kernel, .inl (by decide +kernel)⟩
    size_eq := by decide +kernel
    data_ne := by decide +kernel }]
  last := zeroHeader
  last_zero := by decide
  trailer := []
  trailer_line t ht := by cases ht

/-- The last chunk, and no trailer field. -/
def emptyBody : SentBody where
  chunks := []
  last := zeroHeader
  last_zero := by decide
  trailer := []
  trailer_line t ht := by cases ht

/-- The end of the empty body is not found by a parser for trailers, and the tab makes it throw. -/
theorem end_missed :
    emptyBody.text = ascii "0\r\n\r\n" ∧
    ({ trailersEnabled := true } : ChunkedBodyParser).readPieces [emptyBody.text] = .ok none ∧
    ¬ emptyBody.Answered true ∧
    tabbedBody.text = ascii "3\t;a=b\r\nabc\r\n0\r\n\r\n" ∧
    ({ trailersEnabled := false } : ChunkedBodyParser).readPieces [tabbedBody.text] =
      .error (.invalidInteger .invalid) ∧
    ¬ tabbedBody.Answered false := by
  have hmissed : ({ trailersEnabled := true } : ChunkedBodyParser).readPieces [emptyBody.text] =
      .ok none := by decide +kernel
  have hthrown : ({ trailersEnabled := false } : ChunkedBodyParser).readPieces [tabbedBody.text] =
      .error (.invalidInteger .invalid) := by decide +kernel
  refine ⟨by decide +kernel, hmissed, fun hall => ?_, by decide +kernel, hthrown, fun hall => ?_⟩
  · obtain ⟨before, piece, after, n, -, -, -, -, hread⟩ :=
      hall [] [emptyBody.text] ⟨by simp, by decide +kernel⟩
    rw [hmissed] at hread
    cases hread
  · obtain ⟨before, piece, after, n, -, -, -, -, hread⟩ :=
      hall [] [tabbedBody.text] ⟨by simp, by decide +kernel⟩
    rw [hthrown] at hread
    cases hread

end SentBody

end Mahimahi
