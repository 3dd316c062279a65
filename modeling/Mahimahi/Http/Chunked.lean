import Mahimahi.Http.Header
import Mahimahi.Library.Loops

/-!
# Http — `ChunkedBodyParser`

The parser keeps the bytes from the last chunk boundary on.  `Chunks.loop` is the loop of `read`,
which consumes what it can; `read` answers how much of its input belongs to the body.

A chunk's size is kept in 32 bits, and so is the size with the CRLF that ends the chunk: `needed`
wraps for the two largest sizes.

`acks_keep_step` is about every run of `read`: between calls, the bytes acknowledged, the bytes
parsed with those in the buffer, and the bytes fed are equally many.
-/

open Fallible MachineInt

namespace Mahimahi

open Search Ezio Loops

inductive ChunkState where
  | chunkHdr
  | chunk
  | trailer
  deriving DecidableEq, Repr

/-- The members that the loop of `read` changes, and `trailers_enabled_`. -/
structure Chunks where
  parserBuffer : Bytes := []
  currentChunkSize : Nat := 0
  parsedSoFar : Nat := 0
  state : ChunkState := .chunkHdr
  trailersEnabled : Bool
  deriving DecidableEq, Repr

/-- How the loop stops: with more input needed, or at the end of the body, which is at this place
among all bytes. -/
inductive ChunksResult where
  | pending (c : Chunks)
  | found (parsedSoFar : Nat)
  deriving DecidableEq, Repr

def getChunkSize (chunkHdr : Bytes) : Except HTTPError Nat := do
  let ending ← substr chunkHdr (chunkHdr.length - 2) 2
  assert (ending = CRLF)
  let pos := (find (ascii ";") chunkHdr).or (find CRLF chunkHdr)
  assert (pos.isSome = true)
  let hexString := chunkHdr.take (pos.getD 0)
  let hexString := match find (ascii " ") hexString with
    | some spaceLoc => hexString.take spaceLoc
    | none => hexString
  let size ← readInteger 16 hexString
  return toU32 size

namespace Chunks

/-- `current_chunk_size_ + 2`, in 32 bits -/
def needed (c : Chunks) : Nat := toU32 (c.currentChunkSize + 2 : Nat)

/-- What ends a body. -/
def needle (c : Chunks) : Bytes := if c.trailersEnabled then CRLF ++ CRLF else CRLF

/-- A chunk header whose CRLF is at `i` has been read. -/
def afterHeader (i size : Nat) (c : Chunks) : Chunks :=
  { c with
    currentChunkSize := size
    state := if size = 0 then .trailer else .chunk
    parsedSoFar := c.parsedSoFar + (i + 2)
    parserBuffer := c.parserBuffer.drop (i + 2) }

def afterChunk (c : Chunks) : Chunks :=
  { c with
    state := .chunkHdr
    parsedSoFar := c.parsedSoFar + c.needed
    parserBuffer := c.parserBuffer.drop c.needed }

/-- Accumulated enough bytes: check CRLF at the end of the chunk. -/
def endChunk (c : Chunks) : Except HTTPError Chunks := do
  let ending ← substr c.parserBuffer c.currentChunkSize 2
  assert (ending = CRLF)
  return c.afterChunk

/-- One turn of the loop. -/
def step (c : Chunks) : Except HTTPError (Next Chunks ChunksResult) :=
  if c.parserBuffer = [] then .ok (.stop (.pending c))
  else match c.state with
    | .chunkHdr =>
        match find CRLF c.parserBuffer with
        | some i => do
            let size ← getChunkSize (c.parserBuffer.take (i + 2))
            return .more (c.afterHeader i size)
        | none => return .stop (.pending c)
    | .chunk =>
        if c.needed ≤ c.parserBuffer.length then do
          let c ← c.endChunk
          return .more c
        else return .stop (.pending c)
    | .trailer =>
        match find c.needle c.parserBuffer with
        | some i => return .stop (.found (c.parsedSoFar + (i + c.needle.length)))
        | none => return .stop (.pending c)

variable {c c' : Chunks}

theorem find_nil {needle : Bytes} (h : needle ≠ []) : find needle [] = none := by
  rw [find, if_neg fun hempty => h (List.isEmpty_iff.mp hempty)]

theorem needle_ne (c : Chunks) : c.needle ≠ [] := by
  unfold needle
  split <;> decide

theorem two_le_needle (c : Chunks) : 2 ≤ c.needle.length := by
  unfold needle
  split <;> decide

theorem step_chunkHdr (h : c.state = .chunkHdr) : c.step =
    match find CRLF c.parserBuffer with
    | some i => (getChunkSize (c.parserBuffer.take (i + 2))).map fun size =>
        .more (c.afterHeader i size)
    | none => .ok (.stop (.pending c)) := by
  unfold step
  split
  next hempty => rw [hempty, find_nil (by decide)]
  · rw [h]
    rfl

theorem step_chunk (h : c.state = .chunk) : c.step =
    if c.parserBuffer ≠ [] ∧ c.needed ≤ c.parserBuffer.length then c.endChunk.map .more
    else .ok (.stop (.pending c)) := by
  unfold step
  split
  next hempty => rw [if_neg fun hand => hand.1 hempty]
  next hne =>
    rw [h]
    by_cases hle : c.needed ≤ c.parserBuffer.length
    · have hand : c.parserBuffer ≠ [] ∧ c.needed ≤ c.parserBuffer.length := ⟨hne, hle⟩
      simp only [if_pos hle, if_pos hand]
      rfl
    · have hand : ¬ (c.parserBuffer ≠ [] ∧ c.needed ≤ c.parserBuffer.length) := fun h => hle h.2
      simp only [if_neg hle, if_neg hand]
      rfl

theorem step_trailer (h : c.state = .trailer) : c.step =
    match find c.needle c.parserBuffer with
    | some i => .ok (.stop (.found (c.parsedSoFar + (i + c.needle.length))))
    | none => .ok (.stop (.pending c)) := by
  unfold step
  split
  next hempty => rw [hempty, find_nil c.needle_ne]
  · rw [h]
    rfl

/-- What a turn that goes on has done. -/
theorem step_more (h : c.step = .ok (.more c')) :
    (c.state = .chunkHdr ∧ ∃ i size, find CRLF c.parserBuffer = some i ∧
        getChunkSize (c.parserBuffer.take (i + 2)) = .ok size ∧ c' = c.afterHeader i size) ∨
      (c.state = .chunk ∧ c.parserBuffer ≠ [] ∧ c.needed ≤ c.parserBuffer.length ∧
        substr c.parserBuffer c.currentChunkSize 2 = .ok CRLF ∧ c' = c.afterChunk) := by
  cases hstate : c.state with
  | chunkHdr =>
      rw [step_chunkHdr hstate] at h
      split at h
      next i hi =>
        obtain ⟨size, hsize, hnext⟩ := of_map_ok h
        cases hnext
        exact .inl ⟨rfl, i, size, hi, hsize, rfl⟩
      · cases h
  | chunk =>
      rw [step_chunk hstate] at h
      split at h
      next hand =>
        obtain ⟨c₁, hc₁, hnext⟩ := of_map_ok h
        cases hnext
        obtain ⟨ending, hending, hc₁⟩ := bind_ok.mp hc₁
        obtain ⟨⟨⟩, hcrlf, hc₁⟩ := bind_ok.mp hc₁
        cases hc₁
        have hcrlf' : ending = CRLF := assert_ok.mp hcrlf
        exact .inr ⟨rfl, hand.1, hand.2, hcrlf' ▸ hending, rfl⟩
      · cases h
  | trailer =>
      rw [step_trailer hstate] at h
      split at h <;> cases h

/-- What a turn shortens: the buffer, or the way to the end of a chunk. -/
def measure (c : Chunks) : Nat :=
  2 * c.parserBuffer.length + match c.state with
    | .chunk => 1
    | _ => 0

theorem step_shrinks (h : c.step = .ok (.more c')) : c'.measure < c.measure := by
  unfold measure
  rcases step_more h with ⟨hstate, i, size, hi, -, rfl⟩ | ⟨hstate, -, hle, -, rfl⟩
  · have hlen := find_le hi
    have hcrlf : CRLF.length = 2 := rfl
    rw [hstate, afterHeader, List.length_drop]
    dsimp only
    split <;> omega
  · rw [hstate, afterChunk, List.length_drop]
    dsimp only
    omega

def loop : Loop HTTPError Chunks ChunksResult where
  step := step
  measure := measure
  shrinks := step_shrinks

end Chunks

structure ChunkedBodyParser extends Chunks where
  ackedSoFar : Nat := 0
  deriving DecidableEq, Repr

/-- The answer of a body parser: `npos`, or how much of the input belongs to the body, which ends
there.  Nothing reads a parser after that. -/
inductive BodyRead (P : Type) where
  | all (p : P)
  | done (n : Nat)
  deriving DecidableEq, Repr

/-- The answer to the rest of an input, as one to all of it. -/
def BodyRead.behind {P : Type} (k : Nat) : BodyRead P → BodyRead P
  | .all p => .all p
  | .done n => .done (k + n)

namespace Chunks

def append (c : Chunks) (input : Bytes) : Chunks :=
  { c with parserBuffer := c.parserBuffer ++ input }

end Chunks

def ChunkedBodyParser.read (inputBuffer : Bytes) (p : ChunkedBodyParser) :
    Except HTTPError (BodyRead ChunkedBodyParser) := do
  match ← Chunks.loop.run (p.toChunks.append inputBuffer) with
  | .pending c => return .all { toChunks := c, ackedSoFar := p.ackedSoFar + inputBuffer.length }
  | .found parsedSoFar =>
      assert (p.ackedSoFar < parsedSoFar)
      return .done (parsedSoFar - p.ackedSoFar)

namespace Chunks

/-! ### More input -/

variable {c c' : Chunks}

@[simp] theorem append_buffer (c : Chunks) (x : Bytes) :
    (c.append x).parserBuffer = c.parserBuffer ++ x := rfl

@[simp] theorem append_size (c : Chunks) (x : Bytes) :
    (c.append x).currentChunkSize = c.currentChunkSize := rfl

@[simp] theorem append_parsed (c : Chunks) (x : Bytes) :
    (c.append x).parsedSoFar = c.parsedSoFar := rfl

@[simp] theorem append_needed (c : Chunks) (x : Bytes) : (c.append x).needed = c.needed := rfl

@[simp] theorem append_needle (c : Chunks) (x : Bytes) : (c.append x).needle = c.needle := rfl

theorem append_append (c : Chunks) (x y : Bytes) : (c.append x).append y = c.append (x ++ y) := by
  rw [append, append, append, List.append_assoc]

/-- All bytes that the parser has been given. -/
def total (c : Chunks) : Nat := c.parsedSoFar + c.parserBuffer.length

theorem total_append (c : Chunks) (x : Bytes) : (c.append x).total = c.total + x.length := by
  rw [total, total, append_buffer, append_parsed, List.length_append, Nat.add_assoc]

theorem step_total (h : c.step = .ok (.more c')) : c'.total = c.total := by
  unfold total
  rcases step_more h with ⟨-, i, size, hi, -, rfl⟩ | ⟨-, -, hle, -, rfl⟩
  · have hlen := find_le hi
    have hcrlf : CRLF.length = 2 := rfl
    rw [afterHeader, List.length_drop]
    dsimp only
    omega
  · rw [afterChunk, List.length_drop]
    dsimp only
    omega

theorem substr_append {str m : Bytes} {pos n : Nat} (h : pos + n ≤ str.length) :
    substr (str ++ m) pos n = substr str pos n := by
  have hpos : ¬ (str ++ m).length < pos := by
    rw [List.length_append]
    omega
  rw [substr, substr, if_neg hpos, if_neg (by omega), List.drop_append_of_le_length (by omega),
    List.take_append_of_le_length (by rw [List.length_drop]; omega)]

theorem substr_le {str sub : Bytes} {pos n : Nat} (h : substr str pos n = .ok sub) :
    pos + sub.length ≤ str.length := by
  unfold substr at h
  split at h
  · cases h
  · cases h
    rw [List.length_take, List.length_drop]
    omega

theorem take_header {i : Nat} (y : Bytes) (h : find CRLF c.parserBuffer = some i) :
    (c.parserBuffer ++ y).take (i + 2) = c.parserBuffer.take (i + 2) :=
  List.take_append_of_le_length (find_le h)

theorem afterHeader_append {i size : Nat} (y : Bytes) (h : find CRLF c.parserBuffer = some i) :
    (c.append y).afterHeader i size = (c.afterHeader i size).append y := by
  have hle : i + 2 ≤ c.parserBuffer.length := find_le h
  rw [afterHeader, afterHeader, append, append, List.drop_append_of_le_length hle]

theorem afterChunk_append (y : Bytes) (h : c.needed ≤ c.parserBuffer.length) :
    (c.append y).afterChunk = c.afterChunk.append y := by
  rw [afterChunk, afterChunk, append_needed, append, append, List.drop_append_of_le_length h]

/-- A chunk that is there in full is there when there is more to read. -/
theorem append_full (y : Bytes) (hne : c.parserBuffer ≠ [])
    (hle : c.needed ≤ c.parserBuffer.length) :
    (c.append y).parserBuffer ≠ [] ∧
      (c.append y).needed ≤ (c.append y).parserBuffer.length := by
  rw [append_buffer, append_needed, List.length_append]
  exact ⟨List.append_ne_nil_of_left_ne_nil hne y, by omega⟩

/-- A turn that goes on goes on the same way when there is more to read. -/
theorem step_append (y : Bytes) (h : c.step = .ok (.more c')) :
    (c.append y).step = .ok (.more (c'.append y)) := by
  rcases step_more h with ⟨hstate, i, size, hi, hsize, rfl⟩ | ⟨hstate, hne, hle, hcrlf, rfl⟩
  · rw [step_chunkHdr (c := c.append y) hstate, append_buffer, find_append hi]
    dsimp only
    rw [take_header y hi, hsize, ← afterHeader_append y hi]
    rfl
  · have hand := append_full y hne hle
    have hle' : c.currentChunkSize + 2 ≤ c.parserBuffer.length := substr_le hcrlf
    rw [step_chunk (c := c.append y) hstate, if_pos hand, endChunk, append_buffer, append_size,
      substr_append hle', hcrlf, ok_bind, assert_pos rfl, ok_bind, ← afterChunk_append y hle]
    rfl

/-- There is not enough in the buffer to go on. -/
def Blocked (c : Chunks) : Prop :=
  match c.state with
  | .chunkHdr => find CRLF c.parserBuffer = none
  | .chunk => c.parserBuffer = [] ∨ c.parserBuffer.length < c.needed
  | .trailer => find c.needle c.parserBuffer = none

theorem step_stop {r : ChunksResult} (h : c.step = .ok (.stop r)) :
    (r = .pending c ∧ c.Blocked) ∨
      (c.state = .trailer ∧ ∃ i, find c.needle c.parserBuffer = some i ∧
        r = .found (c.parsedSoFar + (i + c.needle.length))) := by
  unfold Blocked
  cases hstate : c.state with
  | chunkHdr =>
      rw [step_chunkHdr hstate] at h
      split at h
      · obtain ⟨_, -, hnext⟩ := of_map_ok h
        cases hnext
      next hnone => cases h; exact .inl ⟨rfl, hnone⟩
  | chunk =>
      rw [step_chunk hstate] at h
      split at h
      · obtain ⟨_, -, hnext⟩ := of_map_ok h
        cases hnext
      next hand =>
        cases h
        refine .inl ⟨rfl, or_iff_not_imp_left.mpr fun hne => ?_⟩
        exact Nat.lt_of_not_le fun hle => hand ⟨hne, hle⟩
  | trailer =>
      rw [step_trailer hstate] at h
      split at h
      next i hi => cases h; exact .inr ⟨rfl, i, hi, rfl⟩
      next hnone => cases h; exact .inl ⟨rfl, hnone⟩

theorem step_append_found {n : Nat} (y : Bytes) (h : c.step = .ok (.stop (.found n))) :
    (c.append y).step = .ok (.stop (.found n)) := by
  rcases step_stop h with ⟨hr, -⟩ | ⟨hstate, i, hi, hr⟩
  · cases hr
  · cases hr
    rw [step_trailer (c := c.append y) hstate, append_buffer, append_needle, find_append hi]
    rfl

theorem step_parsed_le (h : c.step = .ok (.more c')) : c.parsedSoFar ≤ c'.parsedSoFar := by
  rcases step_more h with ⟨-, i, size, -, -, rfl⟩ | ⟨-, -, -, -, rfl⟩
  · exact Nat.le_add_right _ _
  · exact Nat.le_add_right _ _

theorem found_spec {n : Nat} (h : loop.run c = .ok (.found n)) :
    ∃ t i, loop.Reaches c t ∧ t.state = .trailer ∧ find t.needle t.parserBuffer = some i ∧
      n = t.parsedSoFar + (i + t.needle.length) := by
  obtain ⟨t, ht, hstop⟩ := Loop.run_ok_iff.mp h
  rcases step_stop hstop with ⟨hr, -⟩ | ⟨hstate, i, hi, hr⟩
  · cases hr
  · cases hr
    exact ⟨t, i, ht, hstate, hi, rfl⟩

theorem reaches_total {t : Chunks} (h : loop.Reaches c t) : t.total = c.total :=
  h.invariant (P := fun u => u.total = c.total) (fun _ _ hu hs => (step_total hs).trans hu) rfl

theorem reaches_parsed_le {t : Chunks} (h : loop.Reaches c t) : c.parsedSoFar ≤ t.parsedSoFar :=
  h.invariant (P := fun u => c.parsedSoFar ≤ u.parsedSoFar)
    (fun _ _ hu hs => hu.trans (step_parsed_le hs)) (Nat.le_refl _)

theorem found_le {n : Nat} (h : loop.run c = .ok (.found n)) : n ≤ c.total := by
  obtain ⟨t, i, ht, -, hi, rfl⟩ := found_spec h
  have hle := find_le hi
  have htotal := reaches_total ht
  unfold total at htotal ⊢
  omega

/-- After the loop was blocked, the first turn takes all that there was, and more. -/
theorem first_turn {y : Bytes} (hblocked : c.Blocked) (h : (c.append y).step = .ok (.more c')) :
    c.total ≤ c'.parsedSoFar := by
  unfold Blocked at hblocked
  unfold total
  rcases step_more h with ⟨hhdr, k, size, hk, -, rfl⟩ | ⟨hchunk, -, hle, -, rfl⟩
  · have hhdr' : c.state = .chunkHdr := hhdr
    rw [hhdr'] at hblocked
    have hlt : c.parserBuffer.length < k + 2 := find_append_none hblocked hk
    rw [afterHeader, append_parsed]
    dsimp only
    omega
  · have hchunk' : c.state = .chunk := hchunk
    rw [hchunk'] at hblocked
    rw [afterChunk, append_parsed, append_needed]
    dsimp only
    rcases hblocked with hnil | hlt
    · rw [hnil, List.length_nil]
      omega
    · omega

/-- The end that is found after the loop was blocked lies behind all that it had then. -/
theorem found_gt {n : Nat} {y : Bytes} (hblocked : c.Blocked)
    (h : loop.run (c.append y) = .ok (.found n)) : c.total < n := by
  obtain ⟨t, i, ht, hstate, hi, rfl⟩ := found_spec h
  cases ht with
  | refl =>
      -- the needle was not there before: it ends in the new bytes
      have hstate' : c.state = .trailer := hstate
      rw [Blocked, hstate'] at hblocked
      have := find_append_none hblocked hi
      rw [total, append_parsed, append_needle]
      omega
  | @more _ d _ hstep hreach =>
      have hparsed := reaches_parsed_le hreach
      have hneedle := two_le_needle t
      have hfirst := first_turn hblocked hstep
      omega

/-- What a run that comes to a stop has read, it reads the same way when there is more. -/
theorem run_found {n : Nat} (y : Bytes) (h : loop.run c = .ok (.found n)) :
    loop.run (c.append y) = .ok (.found n) := by
  obtain ⟨t, ht, hstop⟩ := Loop.run_ok_iff.mp h
  exact Loop.run_ok_iff.mpr ⟨_, ht.lift (f := (append · y)) fun _ _ => step_append y,
    step_append_found y hstop⟩

theorem pending_spec (h : loop.run c = .ok (.pending c')) : loop.Reaches c c' ∧ c'.Blocked := by
  obtain ⟨t, ht, hstop⟩ := Loop.run_ok_iff.mp h
  rcases step_stop hstop with ⟨hr, hblocked⟩ | ⟨-, i, -, hr⟩
  · cases hr
    exact ⟨ht, hblocked⟩
  · cases hr

theorem run_pending_reaches (y : Bytes) (h : loop.run c = .ok (.pending c')) :
    loop.Reaches (c.append y) (c'.append y) :=
  (pending_spec h).1.lift (f := (append · y)) fun _ _ => step_append y

theorem run_pending (y : Bytes) (h : loop.run c = .ok (.pending c')) :
    loop.run (c.append y) = loop.run (c'.append y) ∧ c'.Blocked ∧ c'.total = c.total := by
  obtain ⟨hreach, hblocked⟩ := pending_spec h
  exact ⟨(run_pending_reaches y h).run_eq, hblocked, reaches_total hreach⟩

/-! ### The size that wraps -/

/-- A chunk whose size with its CRLF wraps passes the check: the code takes a few of its bytes, or
none, for all of it. -/
def WrapPasses (c : Chunks) : Prop :=
  c.state = .chunk ∧ 2 ^ 32 ≤ c.currentChunkSize + 2 ∧
    substr c.parserBuffer c.currentChunkSize 2 = .ok CRLF

/-- A chunk whose size wraps is at least 4 GiB. -/
theorem wrapPasses_length (h : c.WrapPasses) : 2 ^ 32 ≤ c.parserBuffer.length := by
  obtain ⟨-, hsize, hcrlf⟩ := h
  have hle : c.currentChunkSize + 2 ≤ c.parserBuffer.length := substr_le hcrlf
  omega

/-- What the loop comes to with less than 4 GiB of new input does not pass a size that wraps, for
such a chunk is waited for with an empty buffer. -/
theorem not_wrapPasses_of_short {t : Chunks} {y : Bytes} (hblocked : c.Blocked)
    (hsize : c.currentChunkSize < 2 ^ 32) (hy : y.length < 2 ^ 32)
    (ht : loop.Reaches (c.append y) t) : ¬ t.WrapPasses := by
  intro hwrap
  have hlength := wrapPasses_length hwrap
  cases ht with
  | refl =>
      obtain ⟨hstate, hwraps, -⟩ := hwrap
      have hstate' : c.state = .chunk := hstate
      have hwraps' : 2 ^ 32 ≤ c.currentChunkSize + 2 := hwraps
      rw [append_buffer, List.length_append] at hlength
      rw [Blocked, hstate'] at hblocked
      rcases hblocked with hnil | hlt
      · rw [hnil, List.length_nil] at hlength
        omega
      · have hneeded : c.needed ≤ 1 := by
          rw [needed, toU32]
          omega
        omega
  | @more _ d _ hstep hreach =>
      have htotal := (reaches_total hreach).trans (step_total hstep)
      have hparsed := (first_turn hblocked hstep).trans (reaches_parsed_le hreach)
      rw [total_append, total] at htotal
      omega

theorem getChunkSize_lt {chunkHdr : Bytes} {size : Nat} (h : getChunkSize chunkHdr = .ok size) :
    size < 2 ^ 32 := by
  obtain ⟨ending, -, h⟩ := bind_ok.mp h
  obtain ⟨-, -, h⟩ := bind_ok.mp h
  obtain ⟨-, -, h⟩ := bind_ok.mp h
  obtain ⟨v, -, h⟩ := bind_ok.mp h
  cases h
  exact toU32_lt v

theorem reaches_sized {t : Chunks} (h : loop.Reaches c t) (hsize : c.currentChunkSize < 2 ^ 32) :
    t.currentChunkSize < 2 ^ 32 := by
  refine h.invariant (P := fun c => c.currentChunkSize < 2 ^ 32) (fun c c' hc hstep => ?_) hsize
  rcases step_more hstep with ⟨-, i, size, -, hsize, rfl⟩ | ⟨-, -, -, -, rfl⟩
  · exact getChunkSize_lt hsize
  · exact hc

theorem needed_eq (h : c.currentChunkSize + 2 < 2 ^ 32) : c.needed = c.currentChunkSize + 2 := by
  rw [needed, toU32_of_range (by omega) (by omega), Int.toNat_natCast]

theorem step_error {e : HTTPError} (h : c.step = .error e) :
    (c.state = .chunkHdr ∧ ∃ i, find CRLF c.parserBuffer = some i ∧
        getChunkSize (c.parserBuffer.take (i + 2)) = .error e) ∨
      (c.state = .chunk ∧ c.parserBuffer ≠ [] ∧ c.needed ≤ c.parserBuffer.length ∧
        substr c.parserBuffer c.currentChunkSize 2 ≠ .ok CRLF) := by
  cases hstate : c.state with
  | chunkHdr =>
      rw [step_chunkHdr hstate] at h
      split at h
      next i hi => exact .inl ⟨rfl, i, hi, of_map_error h⟩
      · cases h
  | chunk =>
      rw [step_chunk hstate] at h
      split at h
      next hand =>
        refine .inr ⟨rfl, hand.1, hand.2, fun hcrlf => ?_⟩
        rw [endChunk, hcrlf] at h
        cases h
      · cases h
  | trailer =>
      rw [step_trailer hstate] at h
      split at h <;> cases h

/-- A turn that fails fails when there is more to read, unless it then passes a size that wraps. -/
theorem step_append_error {e : HTTPError} {y : Bytes} (h : c.step = .error e)
    (hwrap : ¬ (c.append y).WrapPasses) : ∃ e', (c.append y).step = .error e' := by
  rcases step_error h with ⟨hstate, i, hi, hsize⟩ | ⟨hstate, hne, hle, hcrlf⟩
  · refine ⟨e, ?_⟩
    rw [step_chunkHdr (c := c.append y) hstate, append_buffer, find_append hi]
    dsimp only
    rw [take_header y hi, hsize]
    rfl
  · have hand := append_full y hne hle
    -- the CRLF was looked for in bytes that were all there, unless `needed` has wrapped
    have hcrlf' : substr (c.append y).parserBuffer c.currentChunkSize 2 ≠ .ok CRLF := by
      intro hok
      rcases Nat.lt_or_ge (c.currentChunkSize + 2) (2 ^ 32) with hlt | hge
      · rw [append_buffer, substr_append (needed_eq hlt ▸ hle)] at hok
        exact hcrlf hok
      · exact hwrap ⟨hstate, hge, hok⟩
    rw [step_chunk (c := c.append y) hstate, if_pos hand, endChunk, append_size]
    cases hending : substr (c.append y).parserBuffer c.currentChunkSize 2 with
    | error e' => exact ⟨e', rfl⟩
    | ok ending =>
        have hne' : ending ≠ CRLF := fun heq => hcrlf' (heq ▸ hending)
        exact ⟨.assertion, by rw [ok_bind, assert_neg hne']; rfl⟩

end Chunks

namespace ChunkedBodyParser

/-- Between two calls, all bytes have been acknowledged. -/
def Acked (p : ChunkedBodyParser) : Prop := p.total = p.ackedSoFar

theorem read_done {p : ChunkedBodyParser} {b : Bytes} {n : Nat} (y : Bytes)
    (h : p.read b = .ok (.done n)) : p.read (b ++ y) = .ok (.done n) := by
  obtain ⟨r, hr, h⟩ := bind_ok.mp h
  cases r with
  | pending c => cases h
  | found parsedSoFar =>
      rw [read, ← Chunks.append_append, Chunks.run_found y hr]
      exact h

theorem read_all {p p' : ChunkedBodyParser} {b : Bytes} (y : Bytes) (hp : p.Acked)
    (h : p.read b = .ok (.all p')) :
    p'.Acked ∧ p.read (b ++ y) = (p'.read y).map (BodyRead.behind b.length) := by
  obtain ⟨r, hr, h⟩ := bind_ok.mp h
  cases r with
  | found parsedSoFar =>
      obtain ⟨-, -, h⟩ := bind_ok.mp h
      cases h
  | pending c =>
      cases h
      obtain ⟨hrun, hblocked, htotal⟩ := Chunks.run_pending y hr
      rw [Chunks.total_append] at htotal
      have hacked : c.total = p.ackedSoFar + b.length := htotal.trans (congrArg (· + _) hp)
      refine ⟨hacked, ?_⟩
      rw [read, read, ← Chunks.append_append, hrun]
      cases hy : Chunks.loop.run (c.append y) with
      | error e => rfl
      | ok r =>
          cases r with
          | pending c' =>
              rw [ok_bind, ok_bind, List.length_append, ← Nat.add_assoc]
              rfl
          | found n =>
              -- the end lies in `y`, so both counts are from the end of `b` on
              have hgt : p.ackedSoFar + b.length < n := hacked ▸ Chunks.found_gt hblocked hy
              have hcount : n - p.ackedSoFar = b.length + (n - (p.ackedSoFar + b.length)) := by
                omega
              rw [ok_bind, ok_bind]
              dsimp only
              rw [assert_pos (show p.ackedSoFar < n by omega), assert_pos hgt, hcount]
              rfl

/-- The loop on all of the input comes to where it stopped on the first part. -/
theorem read_all_reaches {p p' : ChunkedBodyParser} {b : Bytes} (y : Bytes)
    (h : p.read b = .ok (.all p')) :
    Chunks.loop.Reaches (p.toChunks.append (b ++ y)) (p'.toChunks.append y) := by
  obtain ⟨r, hr, h⟩ := bind_ok.mp h
  cases r with
  | found parsedSoFar =>
      obtain ⟨-, -, h⟩ := bind_ok.mp h
      cases h
  | pending c =>
      cases h
      rw [← Chunks.append_append]
      exact Chunks.run_pending_reaches y hr

theorem read_le {p : ChunkedBodyParser} {b : Bytes} {n : Nat} (hp : p.Acked)
    (h : p.read b = .ok (.done n)) : n ≤ b.length := by
  obtain ⟨r, hr, h⟩ := bind_ok.mp h
  cases r with
  | pending c => cases h
  | found parsedSoFar =>
      obtain ⟨-, -, h⟩ := bind_ok.mp h
      cases h
      have hle := Chunks.found_le hr
      rw [Chunks.total_append, show p.total = p.ackedSoFar from hp] at hle
      omega

theorem read_error {p : ChunkedBodyParser} {b : Bytes} {e : HTTPError} (y : Bytes)
    (h : p.read b = .error e)
    (hwrap : ∀ c, Chunks.loop.Reaches (p.toChunks.append (b ++ y)) c → ¬ c.WrapPasses) :
    ∃ e', p.read (b ++ y) = .error e' := by
  unfold read
  rw [← Chunks.append_append] at hwrap ⊢
  rcases bind_error.mp h with hrun | ⟨r, hr, h⟩
  · obtain ⟨c, hc, hstep⟩ := Loop.run_error_iff.mp hrun
    have hreach := hc.lift (f := (Chunks.append · y)) fun _ _ => Chunks.step_append y
    obtain ⟨e', he'⟩ := Chunks.step_append_error hstep (hwrap _ hreach)
    exact ⟨e', by rw [Loop.run_error_iff.mpr ⟨_, hreach, he'⟩]; rfl⟩
  · cases r with
    | pending c => cases h
    | found n => exact ⟨e, by rw [Chunks.run_found y hr]; exact h⟩

/-- Between two calls the parser has taken all that it could. -/
structure Idle (p : ChunkedBodyParser) : Prop where
  acked : p.Acked
  blocked : p.Blocked
  sized : p.currentChunkSize < 2 ^ 32

theorem idle_new (trailersEnabled : Bool) : Idle { trailersEnabled } where
  acked := rfl
  blocked := Chunks.find_nil (by decide)
  sized := Nat.two_pow_pos 32

theorem read_idle {p p' : ChunkedBodyParser} {b : Bytes} (h : p.Idle)
    (hread : p.read b = .ok (.all p')) : p'.Idle := by
  have hacked := (read_all [] h.acked hread).1
  obtain ⟨r, hr, hread⟩ := bind_ok.mp hread
  cases r with
  | found n =>
      obtain ⟨-, -, hread⟩ := bind_ok.mp hread
      cases hread
  | pending c =>
      cases hread
      obtain ⟨hreach, hblocked⟩ := Chunks.pending_spec hr
      exact ⟨hacked, hblocked, Chunks.reaches_sized hreach h.sized⟩

/-! ### The two counters -/

/-- What ends the calls of `read`: an exception, or the end of the body with the count returned. -/
inductive Ended where
  | failed (e : HTTPError)
  | atEnd (n : Nat)
  deriving DecidableEq, Repr

/-- A call of `read` after which more of the body is to come. -/
def feed (inputBuffer : Bytes) (p : ChunkedBodyParser) : Except Ended ChunkedBodyParser :=
  match p.read inputBuffer with
  | .ok (.all p') => .ok p'
  | .ok (.done n) => .error (.atEnd n)
  | .error e => .error (.failed e)

theorem feed_ok {p p' : ChunkedBodyParser} {b : Bytes} (h : feed b p = .ok p') :
    p.read b = .ok (.all p') := by
  unfold feed at h
  split at h
  next hread => cases h; exact hread
  · cases h
  · cases h

/-- A parser between two calls: all that it was given is acknowledged, and the loop cannot go on
without more. -/
structure Between (inputs : List Bytes) (p : ChunkedBodyParser) : Prop where
  acked : p.ackedSoFar = inputs.flatten.length
  total : p.total = inputs.flatten.length
  blocked : p.Blocked

theorem Between.feed {inputs : List Bytes} {p p' : ChunkedBodyParser} {b : Bytes}
    (h : p.Between inputs) (hb : feed b p = .ok p') : p'.Between (inputs ++ [b]) := by
  obtain ⟨r, hr, hall⟩ := bind_ok.mp (feed_ok hb)
  have hlength : (inputs ++ [b]).flatten.length = inputs.flatten.length + b.length := by
    rw [List.flatten_append, List.flatten_singleton, List.length_append]
  cases r with
  | found parsedSoFar =>
      obtain ⟨-, -, hall⟩ := bind_ok.mp hall
      cases hall
  | pending c =>
      cases hall
      obtain ⟨-, hblocked, htotal⟩ := Chunks.run_pending [] hr
      rw [Chunks.total_append, h.total] at htotal
      refine ⟨?_, ?_, hblocked⟩
      · rw [hlength, ← h.acked]
      · rw [hlength, ← htotal]

/-- The end lies in the bytes of the call that finds it. -/
theorem Between.found {inputs : List Bytes} {p : ChunkedBodyParser} {b : Bytes} {n : Nat}
    (h : p.Between inputs) (hn : Chunks.loop.run (p.toChunks.append b) = .ok (.found n)) :
    p.ackedSoFar < n ∧ n ≤ p.ackedSoFar + b.length := by
  have hgt := Chunks.found_gt h.blocked hn
  have hle := Chunks.found_le hn
  rw [Chunks.total_append] at hle
  rw [h.acked, ← h.total]
  exact ⟨hgt, hle⟩

/-- **The two counters keep step**, whatever the sizes of the chunks, and the count of the last call
is within its input. -/
theorem acks_keep_step {trailersEnabled : Bool} {inputs : List Bytes} {p : ChunkedBodyParser}
    (h : run feed inputs { trailersEnabled } = .ok p) :
    p.ackedSoFar = inputs.flatten.length ∧
    p.parsedSoFar + p.parserBuffer.length = inputs.flatten.length ∧
    ∀ b : Bytes,
      (∀ parsedSoFar, Chunks.loop.run (p.toChunks.append b) = .ok (.found parsedSoFar) →
        p.ackedSoFar < parsedSoFar) ∧
      ∀ n, p.read b = .ok (.done n) → 1 ≤ n ∧ n ≤ b.length := by
  have hstart : Between [] { trailersEnabled } := ⟨rfl, rfl, Chunks.find_nil (by decide)⟩
  have hp : p.Between inputs := run_induction hstart (fun _ _ _ _ _ hp hb => hp.feed hb) h
  refine ⟨hp.acked, hp.total, fun b => ⟨fun parsedSoFar hfound => (hp.found hfound).1, ?_⟩⟩
  intro n hn
  obtain ⟨r, hr, hdone⟩ := bind_ok.mp hn
  cases r with
  | pending c => cases hdone
  | found parsedSoFar =>
      obtain ⟨-, -, hdone⟩ := bind_ok.mp hdone
      cases hdone
      have := hp.found hr
      omega

/-- In a chunk of three bytes, of which two have come. -/
def inThreeBytes : ChunkedBodyParser where
  parserBuffer := [97, 98]
  currentChunkSize := 3
  parsedSoFar := 3
  state := .chunk
  trailersEnabled := false
  ackedSoFar := 5

/-- A chunk whose header comes in two pieces. -/
theorem acks_keep_step_cutHeader :
    inThreeBytes.ackedSoFar = [[51, 13], [10, 97, 98]].flatten.length ∧
    inThreeBytes.parsedSoFar + inThreeBytes.parserBuffer.length =
      [[51, 13], [10, 97, 98]].flatten.length ∧
    ∀ b : Bytes,
      (∀ parsedSoFar, Chunks.loop.run (inThreeBytes.toChunks.append b) = .ok (.found parsedSoFar) →
        inThreeBytes.ackedSoFar < parsedSoFar) ∧
      ∀ n, inThreeBytes.read b = .ok (.done n) → 1 ≤ n ∧ n ≤ b.length :=
  acks_keep_step (show run feed [[51, 13], [10, 97, 98]] { trailersEnabled := false } =
    .ok inThreeBytes by decide +kernel)

end ChunkedBodyParser

end Mahimahi
