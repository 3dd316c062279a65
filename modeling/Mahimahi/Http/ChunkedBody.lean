import Mahimahi.Http.Bodies
import Mahimahi.Http.Heads

/-!
# Http — the chunks that are read

A `ChunkLine` is the header of a chunk as `ChunkedBodyParser` reads it: the size in base 16 and an
extension.  What RFC 2616 lets be sent besides, a tab behind the size and folded lines, is in
`ChunkHeader`.

* `getChunkSize_line`: a chunk's size is read as it was sent.
* `run_chunks`, `run_last`: the parser takes the chunks whose sizes do not wrap, and the end of the
  body behind them.
-/

open Fallible MachineInt

namespace Mahimahi

open Search Ezio Loops

/-- The header of a chunk as the parser reads it: the size in base 16, and an extension that a
semicolon or a space sets off. -/
structure ChunkLine where
  digits : Bytes
  extension : Bytes
  digits_ne : digits ≠ []
  digits_hex : ∀ b ∈ digits, isDigit 16 b = true
  extension_line : IsLine extension
  extension_head : ∀ b ∈ extension.head?, b = 59 ∨ b = 32

/-- A chunk with such a header. -/
structure Chunk extends ChunkLine where
  data : Bytes
  size_eq : ofDigits 16 digits = data.length
  data_ne : data ≠ []

namespace ChunkLine

variable (l : ChunkLine)

def size : Nat := ofDigits 16 l.digits

def line : Bytes := l.digits ++ l.extension

end ChunkLine

def Chunk.text (c : Chunk) : Bytes := c.line ++ (CRLF ++ (c.data ++ CRLF))

/-! ### The header of a chunk -/

theorem ascii_semicolon : ascii ";" = [59] := by decide +kernel

theorem ascii_space : ascii " " = [32] := by decide +kernel

theorem isLine_digits {digits extension : Bytes}
    (hhex : ∀ b ∈ digits, isDigit 16 b = true) (hline : IsLine extension) :
    IsLine (digits ++ extension) := by
  have hcr : (13 : UInt8) ∉ digits := fun hb => absurd (hhex 13 hb) (by decide)
  intro h
  -- a CRLF in the text would have its first byte among the digits
  rw [List.infix_append_iff] at h
  rcases h with h | h | ⟨l₁, l₂, hsplit, h₁, h₂⟩
  · exact hcr (h.subset (List.mem_cons_self (a := 13)))
  · exact hline h
  · cases l₁ with
    | nil => exact hline (hsplit ▸ h₂.isInfix)
    | cons x xs =>
        rw [List.cons_append, CRLF, List.cons.injEq] at hsplit
        exact hcr (h₁.subset (hsplit.1 ▸ List.mem_cons_self))

namespace ChunkLine

variable {l : ChunkLine}

theorem not_mem_digits {b : UInt8} (h : isDigit 16 b = false) : b ∉ l.digits := fun hb => by
  rw [l.digits_hex b hb] at h
  cases h

theorem isLine (l : ChunkLine) : IsLine l.line :=
  isLine_digits l.digits_hex l.extension_line

/-- A size ends at a semicolon or at the end of the line, behind any text `s` in front of them. -/
theorem exists_sizeEnd {s e : Bytes} (h : 59 ∉ s) :
    ∃ k, (find [59] (s ++ (e ++ CRLF))).or (some (e.length + s.length)) =
      some (s.length + k) := by
  rw [find_singleton_append h]
  cases find [59] (e ++ CRLF) with
  | none => exact ⟨e.length, congrArg some (Nat.add_comm _ _)⟩
  | some k => exact ⟨k, congrArg some (Nat.add_comm _ _)⟩

/-- What is left of a chunk's header when the extension is cut off. -/
theorem hexString_eq (l : ChunkLine) :
    ∃ pos, (find (ascii ";") (l.line ++ CRLF)).or (find CRLF (l.line ++ CRLF)) = some pos ∧
      ((find (ascii " ") ((l.line ++ CRLF).take pos) = none ∧
          (l.line ++ CRLF).take pos = l.digits) ∨
        (find (ascii " ") ((l.line ++ CRLF).take pos) = some l.digits.length ∧
          ((l.line ++ CRLF).take pos).take l.digits.length = l.digits)) := by
  have hcrlf : find CRLF (l.line ++ CRLF) = some l.line.length := l.isLine.find_end
  have hsemi : 59 ∉ l.digits := not_mem_digits (by decide)
  have hspace : 32 ∉ l.digits := not_mem_digits (by decide)
  rw [hcrlf, ascii_semicolon, ascii_space]
  cases hext : l.extension with
  | nil =>
      have htext : l.line = l.digits := by rw [line, hext, List.append_nil]
      have hnone : find [59] (l.line ++ CRLF) = none := by
        rw [htext, find_singleton_append hsemi]
        rfl
      rw [hnone, htext]
      refine ⟨_, rfl, .inl ?_⟩
      rw [List.take_left]
      exact ⟨find_singleton_none.mpr hspace, rfl⟩
  | cons b e =>
      rcases l.extension_head b (by rw [hext]; rfl) with rfl | rfl
      · have htext : l.line ++ CRLF = l.digits ++ 59 :: (e ++ CRLF) := by
          rw [line, hext, List.append_assoc]
          rfl
        rw [htext, find_singleton hsemi]
        refine ⟨_, rfl, .inl ?_⟩
        rw [List.take_left]
        exact ⟨find_singleton_none.mpr hspace, rfl⟩
      · have htext : l.line ++ CRLF = (l.digits ++ [32]) ++ (e ++ CRLF) := by
          rw [line, hext, List.append_assoc, List.append_assoc]
          rfl
        have hlength : l.line.length = e.length + (l.digits ++ [32]).length := by
          rw [line, hext, List.length_append, List.length_append, List.length_cons,
            List.length_singleton]
          omega
        have hsemi' : 59 ∉ l.digits ++ [32] := by simpa using hsemi
        obtain ⟨k, hk⟩ := exists_sizeEnd (e := e) hsemi'
        rw [← htext, ← hlength] at hk
        refine ⟨_, hk, .inr ?_⟩
        rw [htext, List.take_length_add_append, List.append_assoc, List.singleton_append]
        exact ⟨find_singleton hspace, List.take_left⟩

end ChunkLine

/-- The size is read off what is in front of a semicolon and a space. -/
theorem getChunkSize_eq {line hexString : Bytes} {pos : Nat}
    (hpos : (find (ascii ";") (line ++ CRLF)).or (find CRLF (line ++ CRLF)) = some pos)
    (hhex : (match find (ascii " ") ((line ++ CRLF).take pos) with
      | some spaceLoc => ((line ++ CRLF).take pos).take spaceLoc
      | none => (line ++ CRLF).take pos) = hexString) :
    getChunkSize (line ++ CRLF) = (readInteger 16 hexString).map fun size => toU32 size := by
  have hending : substr (line ++ CRLF) ((line ++ CRLF).length - 2) 2 = .ok CRLF := by
    have hlength : (line ++ CRLF).length - 2 = line.length := by
      rw [List.length_append]
      rfl
    rw [hlength, substr, if_neg (by rw [List.length_append]; omega), List.drop_left]
    rfl
  rw [getChunkSize, hending, ok_bind, assert_pos rfl, ok_bind, hpos]
  dsimp only [Option.getD_some]
  rw [assert_pos (show (some pos).isSome = true from rfl), ok_bind, ← hhex]
  rfl

namespace ChunkLine

/-- **A chunk's size is read as it was sent.** -/
theorem getChunkSize_line (l : ChunkLine) (hsize : l.size < 2 ^ 32) :
    getChunkSize (l.line ++ CRLF) = .ok l.size := by
  obtain ⟨pos, hpos, hhex⟩ := l.hexString_eq
  have hread : readInteger 16 l.digits = .ok (l.size : Int) := by
    have hfits : ofDigits 16 l.digits < 2 ^ 63 := by
      have : ofDigits 16 l.digits < 2 ^ 32 := hsize
      omega
    rw [readInteger, myatoi_hex l.digits_ne l.digits_hex hfits]
    rfl
  have hdigits : getChunkSize (l.line ++ CRLF) =
      (readInteger 16 l.digits).map fun size => toU32 size := by
    rcases hhex with ⟨hfind, hhex⟩ | ⟨hfind, hhex⟩
    · exact getChunkSize_eq hpos (by rw [hfind]; exact hhex)
    · exact getChunkSize_eq hpos (by rw [hfind]; exact hhex)
  rw [hdigits, hread, Except.map, toU32_of_range (by omega) (by omega), Int.toNat_natCast]

end ChunkLine

/-! ### The loop of `read` -/

namespace Chunks

variable {c c' : Chunks} {rest : Bytes}

/-- No chunk whose size wraps passes from here on. -/
def NoWrap (c : Chunks) : Prop := ∀ d, loop.Reaches c d → ¬ d.WrapPasses

theorem noWrap_of_more (h : c.step = .ok (.more c')) (hc : ¬ c.WrapPasses) (hc' : c'.NoWrap) :
    c.NoWrap := fun d hd => by
  rcases hd.eq_or_of_more h with rfl | hd
  · exact hc
  · exact hc' d hd

theorem not_wrapPasses (h : c.state = .chunk → c.currentChunkSize + 2 < 2 ^ 32) :
    ¬ c.WrapPasses := fun ⟨hstate, hsize, _⟩ => absurd (h hstate) (Nat.not_lt.mpr hsize)

theorem step_line (l : ChunkLine) (hstate : c.state = .chunkHdr)
    (hbuffer : c.parserBuffer = l.line ++ (CRLF ++ rest)) (hsize : l.size < 2 ^ 32) :
    c.step = .ok (.more { c with
      currentChunkSize := l.size
      state := if l.size = 0 then .trailer else .chunk
      parsedSoFar := c.parsedSoFar + (l.line.length + 2)
      parserBuffer := rest }) := by
  have htake : (l.line ++ (CRLF ++ rest)).take (l.line.length + 2) = l.line ++ CRLF := by
    rw [List.take_length_add_append]
    rfl
  rw [step_chunkHdr hstate, hbuffer, l.isLine.find]
  dsimp only
  rw [htake, l.getChunkSize_line hsize]
  refine congrArg (fun buffer => Except.ok (Next.more { c with
    currentChunkSize := l.size
    state := if l.size = 0 then .trailer else .chunk
    parsedSoFar := c.parsedSoFar + (l.line.length + 2)
    parserBuffer := buffer })) ?_
  rw [hbuffer, HTTPMessageSequence.drop_line]

theorem step_data {data : Bytes} (hstate : c.state = .chunk)
    (hsize : c.currentChunkSize = data.length) (hfits : data.length + 2 < 2 ^ 32)
    (hbuffer : c.parserBuffer = data ++ (CRLF ++ rest)) :
    c.step = .ok (.more { c with
      state := .chunkHdr
      parsedSoFar := c.parsedSoFar + (data.length + 2)
      parserBuffer := rest }) := by
  have hneeded : c.needed = data.length + 2 := by
    rw [needed_eq (by rw [hsize]; exact hfits), hsize]
  have hcrlf : substr c.parserBuffer c.currentChunkSize 2 = .ok CRLF := by
    rw [hsize, hbuffer, substr, if_neg (by rw [List.length_append]; omega), List.drop_left]
    rfl
  have hand : c.parserBuffer ≠ [] ∧ c.needed ≤ c.parserBuffer.length := by
    rw [hneeded, hbuffer]
    refine ⟨List.append_ne_nil_of_right_ne_nil _ (by simp [CRLF]), ?_⟩
    simp only [List.length_append, show CRLF.length = 2 from rfl]
    omega
  rw [step_chunk hstate, if_pos hand, endChunk, hcrlf, ok_bind, assert_pos rfl, ok_bind, afterChunk,
    hneeded, hbuffer, HTTPMessageSequence.drop_line]
  rfl

/-- Without trailers, the next CRLF is the end. -/
theorem step_end {line : Bytes} (hline : IsLine line) (hstate : c.state = .trailer)
    (htrailers : c.trailersEnabled = false) (hbuffer : c.parserBuffer = line ++ (CRLF ++ rest)) :
    c.step = .ok (.stop (.found (c.parsedSoFar + (line.length + 2)))) := by
  have hneedle : c.needle = CRLF := by rw [needle, htrailers, if_neg (by decide)]
  rw [step_trailer hstate, hneedle, hbuffer, hline.find rest]
  rfl

/-- Behind the chunk of size 0, the next line ends the body: an empty one, or one that went on with
the header. -/
theorem run_ending (last : ChunkLine) (hlast : last.size = 0) {line : Bytes} (hline : IsLine line)
    (hstate : c.state = .chunkHdr) (htrailers : c.trailersEnabled = false)
    (hbuffer : c.parserBuffer = last.line ++ (CRLF ++ (line ++ (CRLF ++ rest)))) :
    loop.run c = .ok (.found (c.parsedSoFar + (last.line ++ (CRLF ++ (line ++ CRLF))).length)) ∧
      c.NoWrap := by
  have hsize := step_line last hstate hbuffer (by omega)
  rw [hlast, if_pos rfl] at hsize
  have hend := step_end (c := { c with
    currentChunkSize := 0
    state := .trailer
    parsedSoFar := c.parsedSoFar + (last.line.length + 2)
    parserBuffer := line ++ (CRLF ++ rest) }) hline rfl htrailers rfl
  refine ⟨?_, noWrap_of_more hsize (not_wrapPasses fun h => ?_) fun d hd => ?_⟩
  · have hlength : (last.line ++ (CRLF ++ (line ++ CRLF))).length =
        last.line.length + 2 + (line.length + 2) := by
      simp only [List.length_append, show CRLF.length = 2 from rfl]
      omega
    rw [Loop.run_more (show loop.step c = _ from hsize), Loop.run_stop hend, hlength]
    exact congrArg (fun n => Except.ok (ChunksResult.found n)) (Nat.add_assoc _ _ _)
  · rw [hstate] at h
    cases h
  · rw [hd.eq_of_end fun s' hs' => by cases hend.symm.trans hs']
    exact not_wrapPasses fun h => by cases h

/-- The chunk of size 0, and the empty line behind it, end the body. -/
theorem run_last (last : ChunkLine) (hlast : last.size = 0) (hstate : c.state = .chunkHdr)
    (htrailers : c.trailersEnabled = false)
    (hbuffer : c.parserBuffer = last.line ++ (CRLF ++ (CRLF ++ rest))) :
    loop.run c = .ok (.found (c.parsedSoFar + (last.line ++ (CRLF ++ CRLF)).length)) ∧
      c.NoWrap :=
  run_ending last hlast (show IsLine [] by decide) hstate htrailers hbuffer

/-- A chunk is taken in two steps. -/
theorem run_chunk (k : Chunk) (hk : k.data.length + 2 < 2 ^ 32) (hstate : c.state = .chunkHdr)
    (hbuffer : c.parserBuffer = k.text ++ rest) :
    ∃ c', c'.state = .chunkHdr ∧ c'.trailersEnabled = c.trailersEnabled ∧
      c'.parserBuffer = rest ∧ c'.parsedSoFar = c.parsedSoFar + k.text.length ∧
      loop.run c = loop.run c' ∧ (c'.NoWrap → c.NoWrap) := by
  have hsize : k.toChunkLine.size = k.data.length := k.size_eq
  have hne : k.data.length ≠ 0 := fun h => k.data_ne (List.length_eq_zero_iff.mp h)
  rw [Chunk.text] at hbuffer
  simp only [List.append_assoc] at hbuffer
  have hline := step_line k.toChunkLine hstate hbuffer (by omega)
  rw [hsize, if_neg hne] at hline
  have hdata := step_data (c := { c with
    currentChunkSize := k.data.length
    state := .chunk
    parsedSoFar := c.parsedSoFar + (k.line.length + 2)
    parserBuffer := k.data ++ (CRLF ++ rest) }) rfl rfl hk rfl
  refine ⟨{ c with
      currentChunkSize := k.data.length
      state := .chunkHdr
      parsedSoFar := c.parsedSoFar + (k.line.length + 2) + (k.data.length + 2)
      parserBuffer := rest }, rfl, rfl, rfl, ?_, ?_, fun hwrap =>
    noWrap_of_more hline (not_wrapPasses fun h => ?_)
      (noWrap_of_more hdata (not_wrapPasses fun _ => hk) hwrap)⟩
  · dsimp only
    simp only [Chunk.text, List.length_append, show CRLF.length = 2 from rfl]
    omega
  · rw [Loop.run_more (show loop.step c = _ from hline),
      Loop.run_more (show loop.step _ = _ from hdata)]
  · rw [hstate] at h
    cases h

/-- So is every chunk of a body. -/
theorem run_chunks (chunks : List Chunk) (hsmall : ∀ k ∈ chunks, k.data.length + 2 < 2 ^ 32) :
    ∀ {c : Chunks}, c.state = .chunkHdr →
      c.parserBuffer = chunks.flatMap Chunk.text ++ rest →
      ∃ c', c'.state = .chunkHdr ∧ c'.trailersEnabled = c.trailersEnabled ∧
        c'.parserBuffer = rest ∧
        c'.parsedSoFar = c.parsedSoFar + (chunks.flatMap Chunk.text).length ∧
        loop.run c = loop.run c' ∧ (c'.NoWrap → c.NoWrap) := by
  induction chunks with
  | nil => exact fun {c} hstate hbuffer => ⟨c, hstate, rfl, hbuffer, rfl, rfl, id⟩
  | cons k chunks ih =>
      intro c hstate hbuffer
      obtain ⟨hk, hsmall⟩ := List.forall_mem_cons.mp hsmall
      rw [List.flatMap_cons, List.append_assoc] at hbuffer
      obtain ⟨c₁, hstate₁, htrailers₁, hbuffer₁, hparsed₁, hrun₁, hwrap₁⟩ :=
        run_chunk k hk hstate hbuffer
      obtain ⟨c', hstate', htrailers', hbuffer', hparsed', hrun', hwrap'⟩ :=
        ih hsmall hstate₁ hbuffer₁
      refine ⟨c', hstate', htrailers'.trans htrailers₁, hbuffer', ?_, hrun₁.trans hrun',
        hwrap₁ ∘ hwrap'⟩
      rw [hparsed', hparsed₁, List.flatMap_cons, List.length_append, Nat.add_assoc]

end Chunks

end Mahimahi
