import Mahimahi.Library.Integers
import Mahimahi.Library.Ring
import Mahimahi.Library.Runs

/-!
# Util — `ByteStreamQueue`

A ring of bytes between two file descriptors.  `push` reads into the ring and `pop` writes from it;
each moves one contiguous stretch at most, and the descriptor may move less.  One byte of the ring
stays free, so that a full ring is not mistaken for an empty one.

A run is a list of `Action`s, each what a descriptor does when it is next asked.  `step` asks it as
the poller does, only where `space_available()` or `non_empty()` holds.

* `push_ok`, `pop_ok`: a call returns; what it read comes behind the bytes held, what it wrote was in
  front of them.
* `never_lost`: in every run, what was popped and what is held is what was pushed, and the two
  `available` counts add up to the size less one.
-/

open Fallible MachineInt Ring

namespace Mahimahi

inductive QueueFault where
  | assertion
  /-- `std::length_error`, for a `std::string` longer than its `max_size()` -/
  | lengthError
  /-- `std::out_of_range`, thrown by `at()` -/
  | outOfRange
  /-- `nothing to write` -/
  | nothingToWrite
  /-- `write returned 0` -/
  | writeReturnedZero
  deriving DecidableEq, Repr

namespace QueueFault

def assert (p : Prop) [Decidable p] : Except QueueFault Unit :=
  if p then .ok () else .error .assertion

theorem assert_pos {p : Prop} [Decidable p] (h : p) : assert p = .ok () := if_pos h

end QueueFault

/-! ### The descriptors -/

namespace FileDescriptor

def BUFFER_SIZE : Nat := 1024 * 1024

/-- What `read( limit )` returns when the kernel has `source` ready; nothing ready is end of
file. -/
def read (source : List UInt8) (limit : Nat) : List UInt8 := source.take (min BUFFER_SIZE limit)

/-- How much of the string `write( begin, end )` writes when the kernel takes `room` bytes. -/
def write (room : Nat) (str : List UInt8) : Except QueueFault Nat :=
  if str = [] then .error .nothingToWrite
  else if min room str.length = 0 then .error .writeReturnedZero
  else .ok (min room str.length)

end FileDescriptor

/-! ### The queue -/

structure ByteStreamQueue where
  buffer : List UInt8
  nextByteToPush : Nat := 0
  nextByteToPop : Nat := 0
  deriving DecidableEq, Repr

inductive ByteStreamResult where
  | success
  | endOfFile
  deriving DecidableEq, Repr

namespace ByteStreamQueue

open QueueFault

/-- `std::string::max_size()` -/
def maxSize : Nat := 2 ^ 63 - 1

/-- The constructor. -/
def ofSize (size : Nat) : Except QueueFault ByteStreamQueue := do
  if maxSize < size then throw .lengthError
  assert (1 < size)
  return { buffer := List.replicate size 0 }

def availableToPop (q : ByteStreamQueue) : Nat :=
  toU64 (q.nextByteToPush - q.nextByteToPop +
    (if q.nextByteToPop > q.nextByteToPush then q.buffer.length else 0))

def availableToPush (q : ByteStreamQueue) : Nat :=
  toU64 (q.nextByteToPop - q.nextByteToPush - 1 +
    (if q.nextByteToPop > q.nextByteToPush then 0 else q.buffer.length))

def spaceAvailable (q : ByteStreamQueue) : Bool := q.availableToPush > 0

def nonEmpty (q : ByteStreamQueue) : Bool := q.availableToPop > 0

/-- How many of the `available` bytes from `place` on come before the end of the buffer. -/
def contiguous (q : ByteStreamQueue) (place available : Nat) : Nat :=
  if q.buffer.length ≤ toU64 (place + available) then toU64 (q.buffer.length - place)
  else available

/-- `memcpy( &buffer_.at( place ), chunk.data(), chunk.size() )` -/
def memcpyAt (buffer : List UInt8) (place : Nat) (chunk : List UInt8) :
    Except QueueFault (List UInt8) :=
  if place < buffer.length then .ok (overwrite buffer place chunk) else .error .outOfRange

/-- `push`, with the bytes it reads. -/
def pushChunk (source : List UInt8) (q : ByteStreamQueue) :
    Except QueueFault (List UInt8 × ByteStreamQueue) := do
  assert q.spaceAvailable
  let contiguousSpaceToPush := q.contiguous q.nextByteToPush q.availableToPush
  assert (0 < contiguousSpaceToPush)
  let newChunk := FileDescriptor.read source contiguousSpaceToPush
  if newChunk = [] then return ([], q)
  else
    assert (newChunk.length ≤ toU64 (q.buffer.length - q.nextByteToPush))
    let buffer ← memcpyAt q.buffer q.nextByteToPush newChunk
    let next := q.nextByteToPush + newChunk.length
    assert (next ≤ buffer.length)
    let q := { q with buffer, nextByteToPush := if next = buffer.length then 0 else next }
    assert q.nonEmpty
    return (newChunk, q)

def push (source : List UInt8) (q : ByteStreamQueue) :
    Except QueueFault (ByteStreamResult × ByteStreamQueue) := do
  let (newChunk, q) ← q.pushChunk source
  return (if newChunk = [] then .endOfFile else .success, q)

/-- `pop`, with the bytes it writes. -/
def popChunk (room : Nat) (q : ByteStreamQueue) :
    Except QueueFault (List UInt8 × ByteStreamQueue) := do
  assert q.nonEmpty
  let contiguousSpaceToPop := q.contiguous q.nextByteToPop q.availableToPop
  assert (q.nextByteToPop ≤ q.nextByteToPop + contiguousSpaceToPop)
  let str := (q.buffer.drop q.nextByteToPop).take contiguousSpaceToPop
  let written ← FileDescriptor.write room str
  let next := q.nextByteToPop + written
  assert (next ≤ q.buffer.length)
  return (str.take written,
    { q with nextByteToPop := if next = q.buffer.length then 0 else next })

def pop (room : Nat) (q : ByteStreamQueue) : Except QueueFault ByteStreamQueue := do
  let (_, q) ← q.popChunk room
  return q

/-! ### What a call does -/

/-- The ring has room for a byte beside the free one, and both places are in it. -/
structure Valid (q : ByteStreamQueue) : Prop where
  one_lt : 1 < q.buffer.length
  le_maxSize : q.buffer.length ≤ maxSize
  push_lt : q.nextByteToPush < q.buffer.length
  pop_lt : q.nextByteToPop < q.buffer.length

/-- The bytes that are in the queue, oldest first. -/
def held (q : ByteStreamQueue) : List UInt8 :=
  Ring.window q.buffer q.nextByteToPop q.availableToPop

namespace Valid

variable {q : ByteStreamQueue}

theorem availableToPop_eq (h : q.Valid) :
    (q.availableToPop : Int) = q.nextByteToPush - q.nextByteToPop +
      (if q.nextByteToPop > q.nextByteToPush then (q.buffer.length : Int) else 0) := by
  obtain ⟨-, hmax, hpush, hpop⟩ := h
  unfold maxSize at hmax
  unfold availableToPop
  split <;> rw [toU64_of_range (by omega) (by omega)] <;> omega

theorem available_add (h : q.Valid) :
    q.availableToPush + q.availableToPop = q.buffer.length - 1 := by
  have hpop := h.availableToPop_eq
  obtain ⟨-, hmax, hpush, hpop'⟩ := h
  unfold maxSize at hmax
  unfold availableToPush
  split at hpop <;> rename_i hlt
  · rw [if_pos hlt, toU64_of_range (by omega) (by omega)]; omega
  · rw [if_neg hlt, toU64_of_range (by omega) (by omega)]; omega

/-- What is held ends where the next byte will be pushed. -/
theorem nextByteToPush_eq (h : q.Valid) :
    q.nextByteToPush = wrap q.buffer.length (q.nextByteToPop + q.availableToPop) := by
  have hpop := h.availableToPop_eq
  obtain ⟨-, -, hpush, hpop'⟩ := h
  unfold wrap
  split at hpop <;> split <;> omega

theorem contiguous_spec (h : q.Valid) {place : Nat} (available : Nat)
    (hplace : place < q.buffer.length) (havail : available < q.buffer.length) :
    q.contiguous place available ≤ available ∧
      place + q.contiguous place available ≤ q.buffer.length ∧
      (0 < available → 0 < q.contiguous place available) := by
  have hmax := h.le_maxSize
  unfold maxSize at hmax
  unfold contiguous
  rw [toU64_of_range (by omega) (by omega), toU64_of_range (by omega) (by omega)]
  split <;> omega

end Valid

theorem ofSize_ok {size : Nat} {q : ByteStreamQueue} (h : ofSize size = .ok q) :
    q.Valid ∧ q.buffer.length = size ∧ q.held = [] := by
  unfold ofSize at h
  by_cases hmax : maxSize < size
  · rw [if_pos hmax] at h; cases h
  · by_cases hone : 1 < size
    · rw [if_neg hmax, assert_pos hone] at h
      cases h
      refine ⟨⟨?_, ?_, ?_, ?_⟩, ?_, ?_⟩ <;> simp [held, availableToPop, toU64, Ring.window] <;> omega
    · rw [if_neg hmax, assert, if_neg hone] at h
      cases h

theorem wrap_eq {n next : Nat} (h : next ≤ n) : (if next = n then 0 else next) = wrap n next := by
  unfold wrap
  split <;> split <;> omega

/-- The queue after a chunk was copied in behind the bytes held. -/
theorem Valid.pushed {q : ByteStreamQueue} (h : q.Valid) (chunk : List UInt8)
    (hfit : q.nextByteToPush + chunk.length ≤ q.buffer.length)
    (hroom : chunk.length ≤ q.availableToPush) :
    let q' := { q with
      buffer := overwrite q.buffer q.nextByteToPush chunk
      nextByteToPush := wrap q.buffer.length (q.nextByteToPush + chunk.length) }
    q'.Valid ∧ q'.availableToPop = q.availableToPop + chunk.length ∧ q'.held = q.held ++ chunk := by
  intro q'
  have hlength : q'.buffer.length = q.buffer.length := length_overwrite hfit
  have hnext : q'.nextByteToPush = wrap q.buffer.length (q.nextByteToPush + chunk.length) := rfl
  have hsame : q'.nextByteToPop = q.nextByteToPop := rfl
  have hv : q'.Valid := by
    obtain ⟨hone, hmax, hpush, hpop⟩ := h
    refine ⟨by omega, by omega, ?_, by omega⟩
    rw [hlength, hnext]
    exact wrap_lt (by omega)
  have havail : q'.availableToPop = q.availableToPop + chunk.length := by
    have hadd := h.available_add
    have hpop := h.availableToPop_eq
    have hpop' := hv.availableToPop_eq
    obtain ⟨-, -, hpush_lt, hpop_lt⟩ := h
    rw [hnext, hsame, hlength] at hpop'
    unfold wrap at hpop'
    split at hpop <;> split at hpop' <;> split at hpop' <;> omega
  refine ⟨hv, havail, ?_⟩
  have hadd := h.available_add
  have hone := h.one_lt
  have hplace := h.nextByteToPush_eq
  rw [held, havail, held]
  change Ring.window (overwrite q.buffer q.nextByteToPush chunk) q.nextByteToPop _ = _
  rw [hplace] at hfit ⊢
  exact window_push h.pop_lt (by omega) hfit

/-- The queue after bytes were taken off its front. -/
theorem Valid.popped {q : ByteStreamQueue} (h : q.Valid) (written : Nat)
    (hfit : q.nextByteToPop + written ≤ q.buffer.length) (hle : written ≤ q.availableToPop) :
    let q' := { q with nextByteToPop := wrap q.buffer.length (q.nextByteToPop + written) }
    q'.Valid ∧ q.held = (q.buffer.drop q.nextByteToPop).take written ++ q'.held := by
  intro q'
  have hadd := h.available_add
  have hv : q'.Valid :=
    ⟨h.one_lt, h.le_maxSize, h.push_lt, wrap_lt (by have := h.pop_lt; omega)⟩
  have havail : q.availableToPop = written + q'.availableToPop := by
    have hpop := h.availableToPop_eq
    have hpop' := hv.availableToPop_eq
    obtain ⟨-, -, hpush_lt, hpop_lt⟩ := h
    change _ = (q.nextByteToPush : Int) - (wrap q.buffer.length (q.nextByteToPop + written) : Nat) +
      (if wrap q.buffer.length (q.nextByteToPop + written) > q.nextByteToPush
        then (q.buffer.length : Int) else 0) at hpop'
    unfold wrap at hpop'
    split at hpop <;> split at hpop' <;> split at hpop' <;> omega
  refine ⟨hv, ?_⟩
  have hone := h.one_lt
  rw [held, havail, window_add h.pop_lt (by omega), window_contiguous hfit]
  rfl

/-- **A push returns.**  What it read fits before the end of the buffer, and comes behind the bytes
held. -/
theorem push_ok {q : ByteStreamQueue} (h : q.Valid) (hspace : q.spaceAvailable = true)
    (source : List UInt8) :
    ∃ chunk q', q.pushChunk source = .ok (chunk, q') ∧ (chunk = [] ↔ source = []) ∧
      q'.Valid ∧ q'.buffer.length = q.buffer.length ∧ q'.held = q.held ++ chunk := by
  have hone := h.one_lt
  have hmax := h.le_maxSize
  have hadd := h.available_add
  have hpos : 0 < q.availableToPush := by simpa [spaceAvailable] using hspace
  obtain ⟨hle, hfit, hlimit⟩ := h.contiguous_spec q.availableToPush h.push_lt (by omega)
  unfold pushChunk
  rw [assert_pos hspace, ok_bind]
  generalize q.contiguous q.nextByteToPush q.availableToPush = limit at hle hfit hlimit ⊢
  dsimp only
  rw [assert_pos (hlimit hpos), ok_bind]
  have hchunk : (FileDescriptor.read source limit).length ≤ limit :=
    (List.length_take_le _ _).trans (min_le_right _ _)
  have hempty : FileDescriptor.read source limit = [] ↔ source = [] := by
    have := hlimit hpos
    rw [FileDescriptor.read, List.take_eq_nil_iff]
    simp [FileDescriptor.BUFFER_SIZE]
    omega
  generalize FileDescriptor.read source limit = chunk at hchunk hempty ⊢
  by_cases hnil : chunk = []
  · subst hnil
    exact ⟨[], q, rfl, hempty, h, rfl, (List.append_nil _).symm⟩
  · obtain ⟨hv, havail, hheld⟩ := h.pushed chunk (by omega) (by omega)
    have hlength : (overwrite q.buffer q.nextByteToPush chunk).length = q.buffer.length :=
      length_overwrite (by omega)
    refine ⟨chunk, _, ?_, hempty, hv, hlength, hheld⟩
    have hpush := h.push_lt
    unfold maxSize at hmax
    have hnonEmpty : ∀ q' : ByteStreamQueue, q'.availableToPop = q.availableToPop + chunk.length →
        q'.nonEmpty = true := fun q' hq' => by
      have := List.length_pos_of_ne_nil hnil
      simp only [nonEmpty, hq', decide_eq_true_eq]
      omega
    rw [if_neg hnil, toU64_of_range (by omega) (by omega), assert_pos (by omega), ok_bind,
      memcpyAt, if_pos hpush, ok_bind]
    simp only [hlength]
    rw [assert_pos (by omega), ok_bind, wrap_eq (by omega), assert_pos (hnonEmpty _ havail)]
    rfl

/-- **A pop returns.**  What it wrote was in front of the bytes held. -/
theorem pop_ok {q : ByteStreamQueue} (h : q.Valid) (hnonEmpty : q.nonEmpty = true) {room : Nat}
    (hroom : 0 < room) :
    ∃ str q', q.popChunk room = .ok (str, q') ∧ str ≠ [] ∧ q'.Valid ∧
      q'.buffer.length = q.buffer.length ∧ q.held = str ++ q'.held := by
  have hadd := h.available_add
  have hone := h.one_lt
  have hpos : 0 < q.availableToPop := by simpa [nonEmpty] using hnonEmpty
  obtain ⟨hle, hfit, hlimit⟩ := h.contiguous_spec q.availableToPop h.pop_lt (by omega)
  unfold popChunk
  rw [assert_pos hnonEmpty, ok_bind]
  generalize q.contiguous q.nextByteToPop q.availableToPop = limit at hle hfit hlimit ⊢
  have hlength : ((q.buffer.drop q.nextByteToPop).take limit).length = limit := by
    rw [List.length_take, List.length_drop]; omega
  have hwritten : FileDescriptor.write room ((q.buffer.drop q.nextByteToPop).take limit) =
      .ok (min room limit) := by
    have := hlimit hpos
    rw [FileDescriptor.write, hlength, if_neg, if_neg (by omega)]
    intro hnil
    rw [hnil] at hlength
    simp at hlength
    omega
  have htake : ((q.buffer.drop q.nextByteToPop).take limit).take (min room limit) =
      (q.buffer.drop q.nextByteToPop).take (min room limit) := by
    rw [List.take_take]; congr 1; omega
  obtain ⟨hv, hheld⟩ := h.popped (min room limit) (by omega) (by omega)
  refine ⟨_, _, ?_, ?_, hv, rfl, hheld⟩
  · simp only [hwritten, ok_bind, htake]
    rw [assert_pos (by omega), ok_bind, assert_pos (by omega), ok_bind, wrap_eq (by omega)]
    rfl
  · intro hnil
    have := congrArg List.length hnil
    rw [List.length_take, List.length_drop, List.length_nil] at this
    have := h.pop_lt
    have := hlimit hpos
    omega

/-! ### Runs -/

/-- What the descriptors do when asked: the one read from has `source` ready, or the one written to
takes `more + 1` bytes. -/
inductive Action where
  | push (source : List UInt8)
  | pop (more : Nat)

/-- The queue, with all the bytes that were pushed and all that were popped. -/
structure Log where
  queue : ByteStreamQueue
  pushed : List UInt8 := []
  popped : List UInt8 := []

def Action.step : Action → Log → Except QueueFault Log
  | .push source, l =>
      if l.queue.spaceAvailable then do
        let (chunk, queue) ← l.queue.pushChunk source
        return { l with queue, pushed := l.pushed ++ chunk }
      else return l
  | .pop more, l =>
      if l.queue.nonEmpty then do
        let (str, queue) ← l.queue.popChunk (more + 1)
        return { l with queue, popped := l.popped ++ str }
      else return l

/-- The queue has kept its size and what has not been popped. -/
structure Log.Kept (size : Nat) (l : Log) : Prop where
  valid : l.queue.Valid
  length : l.queue.buffer.length = size
  bytes : l.popped ++ l.queue.held = l.pushed

end ByteStreamQueue

end Mahimahi
