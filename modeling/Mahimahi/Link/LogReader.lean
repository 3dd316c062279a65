import Mathlib.Data.List.TakeWhile
import Mahimahi.Library.Words
import Mahimahi.Link.Log
import Mahimahi.Packet.Contract

/-!
# Link — the log as `mm-throughput-graph` reads it

* `log_read_iff`: over every run, the reader accepts the log and decodes the recorded events exactly
  when the run logged no departure and no drop.

A line is a list of characters.  The writer is the four `record_` functions and the header of the
constructor; the reader is the `LINE` loop of the script.  What the script computes from the events
is left out but for the delays it collects.
-/

open Fallible MachineInt Words

namespace Mahimahi

/-! ### The writer -/

abbrev Text := List Char

def decimal (n : Nat) : Text := Nat.toDigits 10 n

/-- The line that a `record_` function writes. -/
def LogLine.render : LogLine → Text
  | .arrival time size => decimal time ++ [' ', '+', ' '] ++ decimal size
  | .drop time packets bytes =>
      decimal time ++ [' ', 'd', ' '] ++ decimal packets ++ [' '] ++ decimal bytes
  | .opportunity time size => decimal time ++ [' ', '#', ' '] ++ decimal size
  | .departure time size delay queueSize =>
      decimal time ++ [' ', '-', ' '] ++ decimal size ++ " delay: ".toList ++ decimal delay ++
        " queue_size: ".toList ++ decimal queueSize

/-- What the header of a log shows.  No text has a line break, so a text stays within its line. -/
structure LogHeader where
  linkName : Text
  filename : Text
  logfile : Text
  commandLine : Text
  queue : Text
  initTimestamp : Nat
  config : Option Text
  unbroken : ∀ text ∈ [linkName, filename, logfile, commandLine, queue] ++ config.toList, '\n' ∉ text

/-- `base_timestamp_` is 0 when the log is opened. -/
def LogHeader.render (h : LogHeader) : List Text :=
  ["# mahimahi mm-link (".toList ++ h.linkName ++ ") [".toList ++ h.filename ++ "] > ".toList ++
      h.logfile,
    "# command line: ".toList ++ h.commandLine,
    "# queue: ".toList ++ h.queue,
    "# init timestamp: ".toList ++ decimal h.initTimestamp,
    "# base timestamp: ".toList ++ decimal 0] ++
  match h.config with
  | some config => ["# mahimahi config: ".toList ++ config]
  | none => []

/-! ### The reader -/

namespace LogReader

/-- `\s` -/
def isSpace (c : Char) : Bool := c.toNat == 32 || (9 ≤ c.toNat && c.toNat ≤ 13)

/-- `^\d+$` -/
def isNumber (w : Text) : Bool := !w.isEmpty && w.all Char.isDigit

/-- A text read as a number, which is 0 if it does not begin with one.  Fractions and exponents are
left out. -/
def numeric (w : Text) : Int :=
  match w.dropWhile isSpace with
  | '-' :: w => -(Nat.ofDigitChars 10 (w.takeWhile Char.isDigit) 0 : Int)
  | '+' :: w => Nat.ofDigitChars 10 (w.takeWhile Char.isDigit) 0
  | w => Nat.ofDigitChars 10 (w.takeWhile Char.isDigit) 0

inductive ReadError where
  /-- `base timestamp multiply defined` -/
  | multiplyDefined
  /-- `Format: timestamp event_type num_bytes [delay]` -/
  | format
  | invalidTimestamp (timestamp : Text)
  | invalidByteCount (numBytes : Text)
  /-- `logfile is missing base timestamp` -/
  | missingBase
  /-- `Departure format: timestamp - num_bytes delay` -/
  | departureFormat
  | invalidDelay (delay : Text)
  | invalidTimestampAndDelay (timestamp : Int) (delay : Text)
  | unknownEventType (eventType : Text)
  deriving DecidableEq, Repr

inductive Kind where
  | arrival
  | opportunity
  | departure
  | drop
  deriving DecidableEq, Repr

/-- An event of the log: for a departure, also the queueing delay. -/
structure Event where
  time : Int
  kind : Kind
  bytes : Int
  delay : Option Int
  deriving DecidableEq, Repr

/-- Lines 55–115: a line that is not a comment. -/
def event (base : Option Int) (line : Text) : Except ReadError Event :=
  let words := if line.isEmpty then [] else fields isSpace line
  match words[0]?, words[1]?, words[2]?, words[3]? with
  | some timestamp, some eventType, some numBytes, delay =>
      if !isNumber timestamp then .error (.invalidTimestamp timestamp)
      else if !isNumber numBytes then .error (.invalidByteCount numBytes)
      else match base with
        | none => .error .missingBase
        | some base =>
            let time := numeric timestamp - base
            let bytes := numeric numBytes
            if eventType = ['+'] then .ok ⟨time, .arrival, bytes, none⟩
            else if eventType = ['#'] then .ok ⟨time, .opportunity, bytes, none⟩
            else if eventType = ['-'] then match delay with
              | none => .error .departureFormat
              | some delay =>
                  if numeric delay < 0 then .error (.invalidDelay delay)
                  else if time - numeric delay < 0 then
                    .error (.invalidTimestampAndDelay time delay)
                  else .ok ⟨time, .departure, bytes, some (numeric delay)⟩
            else .error (.unknownEventType eventType)
  | _, _, _, _ => .error .format

/-- The variables of the loop. -/
structure Graph where
  baseTimestamp : Option Int := none
  events : List Event := []
  delays : List Int := []
  deriving DecidableEq, Repr

/-- `^# base timestamp: (\d+)` -/
def baseOf (line : Text) : Option Text :=
  if "# base timestamp: ".toList.isPrefixOf line then
    let digits := (line.drop "# base timestamp: ".toList.length).takeWhile Char.isDigit
    if digits.isEmpty then none else some digits
  else none

/-- An iteration of the `LINE` loop. -/
def readLine (line : Text) (g : Graph) : Except ReadError Graph :=
  match baseOf line with
  | some digits =>
      if g.baseTimestamp.isSome then .error .multiplyDefined
      else .ok { g with baseTimestamp := some (numeric digits) }
  | none =>
      if line.head? = some '#' then .ok g
      else do
        let e ← event g.baseTimestamp line
        return { g with events := g.events ++ [e], delays := g.delays ++ e.delay.toList }

def read (file : List Text) : Except ReadError Graph := run readLine file {}

end LogReader

/-- The event that a line records. -/
def LogLine.recorded : LogLine → LogReader.Event
  | .arrival time size => ⟨time, .arrival, size, none⟩
  | .drop time _ bytes => ⟨time, .drop, bytes, none⟩
  | .opportunity time size => ⟨time, .opportunity, size, none⟩
  | .departure time size delay _ => ⟨time, .departure, size, some delay⟩

/-- The reader accepts the log, decodes what was recorded, and collects the recorded delays. -/
def Agrees (h : LogHeader) (lines : List LogLine) : Prop :=
  ∃ g, LogReader.read (h.render ++ lines.map LogLine.render) = .ok g ∧
    g.events = lines.map LogLine.recorded ∧
    g.delays = lines.filterMap fun line => line.recorded.delay

/-! ### The fields of a line -/

theorem decimal_isDigit {n : Nat} : ∀ c ∈ decimal n, c.isDigit = true := fun _ hc =>
  Nat.isDigit_of_mem_toDigits (by decide) (by decide) hc

theorem decimal_ne_nil (n : Nat) : decimal n ≠ [] := Nat.toDigits_ne_nil

namespace LogReader

theorem isSpace_of_isDigit {c : Char} (h : c.isDigit = true) : isSpace c = false := by
  have hrange : 48 ≤ c.toNat ∧ c.toNat ≤ 57 := by
    simpa [Char.isDigit, UInt32.le_iff_toNat_le] using h
  have h₁ : (c.toNat == 32) = false := by
    rw [beq_eq_false_iff_ne]
    omega
  have h₂ : decide (c.toNat ≤ 13) = false := decide_eq_false (by omega)
  rw [isSpace, h₁, h₂, Bool.and_false, Bool.or_false]

theorem decimal_not_space {n : Nat} : ∀ c ∈ decimal n, isSpace c = false :=
  fun c hc => isSpace_of_isDigit (decimal_isDigit c hc)

theorem exists_decimal (n : Nat) : ∃ c w, decimal n = c :: w ∧ c.isDigit = true := by
  obtain ⟨c, w, hw⟩ := List.exists_cons_of_ne_nil (decimal_ne_nil n)
  exact ⟨c, w, hw, decimal_isDigit c (hw ▸ List.mem_cons_self)⟩

theorem isNumber_decimal (n : Nat) : isNumber (decimal n) = true := by
  obtain ⟨c, w, hw, -⟩ := exists_decimal n
  have hall : (decimal n).all Char.isDigit = true := List.all_eq_true.mpr decimal_isDigit
  rw [isNumber, hall, hw]
  rfl

theorem numeric_decimal (n : Nat) : numeric (decimal n) = n := by
  obtain ⟨c, w, hw, hc⟩ := exists_decimal n
  have hdigits : Nat.ofDigitChars 10 ((decimal n).takeWhile Char.isDigit) 0 = n := by
    rw [List.takeWhile_eq_self_iff.mpr decimal_isDigit]
    exact Nat.ofDigitChars_ten_toDigits
  have hspace : (decimal n).dropWhile isSpace = decimal n := by
    rw [hw, List.dropWhile_cons_of_neg (by simp [isSpace_of_isDigit hc])]
  rw [numeric, hspace]
  split
  next w' hminus =>
    rw [hw] at hminus
    cases hminus
    exact absurd hc (by decide)
  next w' hplus =>
    rw [hw] at hplus
    cases hplus
    exact absurd hc (by decide)
  next => rw [hdigits]

/-- A decimal number and a blank in front of a word. -/
theorem fields_decimal_cons {n : Nat} {c : Char} {l : Text} (hc : isSpace c = false) :
    fields isSpace (decimal n ++ ' ' :: c :: l) = decimal n :: fields isSpace (c :: l) :=
  fields_word_cons decimal_not_space rfl hc

/-- What the fields of a line make of it. -/
theorem event_of_fields {line : Text} {time bytes : Nat} {kind : Text} {rest : List Text}
    (h : fields isSpace line = decimal time :: kind :: decimal bytes :: rest) (hne : line ≠ []) :
    event (some 0) line =
      if kind = ['+'] then .ok ⟨time, .arrival, bytes, none⟩
      else if kind = ['#'] then .ok ⟨time, .opportunity, bytes, none⟩
      else if kind = ['-'] then match rest[0]? with
        | none => .error .departureFormat
        | some delay =>
            if numeric delay < 0 then .error (.invalidDelay delay)
            else if time - numeric delay < 0 then .error (.invalidTimestampAndDelay time delay)
            else .ok ⟨time, .departure, bytes, some (numeric delay)⟩
      else .error (.unknownEventType kind) := by
  have hempty : line.isEmpty = false := by simpa using hne
  unfold event
  simp only [hempty, Bool.false_eq_true, if_false, h, List.getElem?_cons_zero,
    List.getElem?_cons_succ, isNumber_decimal, Bool.not_true, numeric_decimal, sub_zero]

/-- The first two fields of every line. -/
theorem fields_render (time n : Nat) (kind : Char) (hk : isSpace kind = false) (l : Text) :
    fields isSpace (decimal time ++ [' ', kind, ' '] ++ decimal n ++ l) =
      decimal time :: [kind] :: fields isSpace (decimal n ++ l) := by
  obtain ⟨c, w, hw, hc⟩ := exists_decimal n
  have hword : fields isSpace ([kind] ++ ' ' :: c :: (w ++ l)) =
      [kind] :: fields isSpace (c :: (w ++ l)) :=
    fields_word_cons (fun d hd => List.mem_singleton.mp hd ▸ hk) rfl (isSpace_of_isDigit hc)
  have hline : decimal time ++ [' ', kind, ' '] ++ decimal n ++ l =
      decimal time ++ ' ' :: kind :: (' ' :: c :: (w ++ l)) := by simp [hw]
  rw [hline, fields_decimal_cons hk, hw]
  exact congrArg (List.cons (decimal time)) hword

theorem render_ne_nil (line : LogLine) : line.render ≠ [] := by
  cases line <;> simp [LogLine.render, decimal_ne_nil]

/-- The event that the reader makes of a line: the delay of a departure is read from the word
`delay:`. -/
def decoded : LogLine → Event
  | .departure time size _ _ => ⟨time, .departure, size, some 0⟩
  | line => line.recorded

/-- **What the reader makes of a line.**  It has no case for drops. -/
theorem event_render (line : LogLine) : event (some 0) line.render = match line with
    | .drop _ _ _ => .error (.unknownEventType ['d'])
    | line => .ok (decoded line) := by
  cases line with
  | arrival time size =>
      have hfields := fields_render time size '+' rfl []
      rw [List.append_nil, List.append_nil, fields_word decimal_not_space] at hfields
      exact event_of_fields hfields (render_ne_nil (.arrival time size))
  | opportunity time size =>
      have hfields := fields_render time size '#' rfl []
      rw [List.append_nil, List.append_nil, fields_word decimal_not_space] at hfields
      exact event_of_fields hfields (render_ne_nil (.opportunity time size))
  | drop time packets bytes =>
      have hfields := fields_render time packets 'd' rfl
        (' ' :: decimal bytes)
      obtain ⟨c, w, hw, hc⟩ := exists_decimal bytes
      rw [hw, fields_decimal_cons (isSpace_of_isDigit hc)] at hfields
      have hevent := event_of_fields (by rw [← hfields, LogLine.render, hw]; simp)
        (render_ne_nil (.drop time packets bytes))
      exact hevent
  | departure time size delay queueSize =>
      -- the fourth field is the word `delay:`, which has no leading number
      obtain ⟨c, w, hw, hc⟩ := exists_decimal delay
      have hword := fields_word_cons (w := "delay:".toList) (a := ' ')
        (l := w ++ " queue_size: ".toList ++ decimal queueSize) (by simp [isSpace]) rfl
        (isSpace_of_isDigit hc)
      have hfields := fields_render time size '-' rfl
        (' ' :: ("delay:".toList ++ ' ' :: c :: (w ++ " queue_size: ".toList ++ decimal queueSize)))
      have hsize : fields isSpace (decimal size ++ ' ' :: ("delay:".toList ++
          ' ' :: c :: (w ++ " queue_size: ".toList ++ decimal queueSize))) = _ :=
        fields_decimal_cons (n := size) (c := 'd') rfl
      have hline : (LogLine.departure time size delay queueSize).render =
          decimal time ++ [' ', '-', ' '] ++ decimal size ++ ' ' :: ("delay:".toList ++
            ' ' :: c :: (w ++ " queue_size: ".toList ++ decimal queueSize)) := by
        rw [LogLine.render, hw]
        simp
      have hevent := event_of_fields (hline ▸ hfields.trans
        (congrArg (decimal time :: ['-'] :: ·) (hsize.trans (congrArg _ hword))))
        (render_ne_nil (.departure time size delay queueSize))
      have hdelay : numeric ['d', 'e', 'l', 'a', 'y', ':'] = 0 := by decide
      have htime : ¬ (time : Int) < 0 := by omega
      simpa [hdelay, htime, decoded] using hevent

/-! ### The lines of a log -/

theorem render_head (line : LogLine) : ∃ c w, line.render = c :: w ∧ c.isDigit = true := by
  have hhead : ∀ {n : Nat} {l : Text}, ∃ c w, decimal n ++ l = c :: w ∧ c.isDigit = true := by
    intro n l
    obtain ⟨c, w, hw, hc⟩ := exists_decimal n
    exact ⟨c, w ++ l, by rw [hw, List.cons_append], hc⟩
  cases line with
  | arrival time size => simpa only [LogLine.render, List.append_assoc] using hhead
  | drop time packets bytes => simpa only [LogLine.render, List.append_assoc] using hhead
  | opportunity time size => simpa only [LogLine.render, List.append_assoc] using hhead
  | departure time size delay queueSize =>
      simpa only [LogLine.render, List.append_assoc] using hhead

theorem readLine_render {line : LogLine} {g : Graph} (hg : g.baseTimestamp = some 0) :
    readLine line.render g = match line with
      | .drop _ _ _ => .error (.unknownEventType ['d'])
      | line => .ok { g with events := g.events ++ [decoded line],
                             delays := g.delays ++ (decoded line).delay.toList } := by
  obtain ⟨c, w, hw, hc⟩ := render_head line
  have hne : c ≠ '#' := fun heq => by
    rw [heq] at hc
    exact absurd hc (by decide)
  have hbase : baseOf line.render = none := by
    have hpre : "# base timestamp: ".toList.isPrefixOf (c :: w) = false := by
      simp [List.isPrefixOf, hne.symm]
    rw [hw, baseOf, hpre]
    rfl
  have hhead : line.render.head? ≠ some '#' := by
    rw [hw]
    simpa using hne
  rw [readLine, hbase]
  dsimp only
  rw [if_neg hhead, hg, event_render]
  cases line <;> rfl

theorem readLine_comment {line : Text} (g : Graph)
    (hbase : "# base timestamp: ".toList.isPrefixOf line = false) (hhead : line.head? = some '#') :
    readLine line g = .ok g := by
  have hnone : baseOf line = none := by rw [baseOf, hbase]; rfl
  rw [readLine, hnone]
  exact if_pos hhead

/-- The header is skipped, but for the base timestamp. -/
theorem read_header (h : LogHeader) : read h.render = .ok { baseTimestamp := some 0 } := by
  have hbase : readLine ("# base timestamp: ".toList ++ decimal 0) {} =
      .ok { baseTimestamp := some 0 } := by decide
  have hconfig : ∀ g, run readLine (match h.config with
      | some config => ["# mahimahi config: ".toList ++ config]
      | none => []) g = .ok g := by
    intro g
    cases h.config with
    | none => rfl
    | some config =>
        exact (run_singleton _ _).trans
          (readLine_comment g (by simp [List.isPrefixOf]) (by simp))
  rw [read, LogHeader.render, run_append,
    run_cons, readLine_comment {} (by simp [List.isPrefixOf]) (by simp), ok_bind,
    run_cons, readLine_comment {} (by simp [List.isPrefixOf]) (by simp), ok_bind,
    run_cons, readLine_comment {} (by simp [List.isPrefixOf]) (by simp), ok_bind,
    run_cons, readLine_comment {} (by simp [List.isPrefixOf]) (by simp), ok_bind,
    run_cons, hbase, ok_bind]
  exact hconfig _

def isDrop : LogLine → Bool
  | .drop _ _ _ => true
  | _ => false

theorem readLine_ok {line : LogLine} {g : Graph} (hg : g.baseTimestamp = some 0)
    (hline : isDrop line = false) : readLine line.render g = .ok { g with
      events := g.events ++ [decoded line], delays := g.delays ++ (decoded line).delay.toList } := by
  rw [readLine_render hg]
  cases line with
  | drop time packets bytes => cases hline
  | arrival time size => rfl
  | opportunity time size => rfl
  | departure time size delay queueSize => rfl

theorem read_lines {lines : List LogLine} : ∀ {g : Graph}, g.baseTimestamp = some 0 →
    (∀ line ∈ lines, isDrop line = false) →
    run readLine (lines.map LogLine.render) g = .ok { g with
      events := g.events ++ lines.map decoded
      delays := g.delays ++ lines.filterMap fun line => (decoded line).delay } := by
  induction lines with
  | nil => intro g hg _; simp
  | cons line lines ih =>
      intro g hg hlines
      obtain ⟨hline, hlines⟩ := List.forall_mem_cons.mp hlines
      rw [List.map_cons, run_cons, readLine_ok hg hline, ok_bind]
      have hrest := @ih { g with
        events := g.events ++ [decoded line]
        delays := g.delays ++ (decoded line).delay.toList } hg hlines
      rw [hrest]
      cases hdelay : (decoded line).delay <;> simp [hdelay]

theorem read_drop {lines : List LogLine} : ∀ {g : Graph}, g.baseTimestamp = some 0 →
    (∃ line ∈ lines, isDrop line = true) →
    ∃ e, run readLine (lines.map LogLine.render) g = .error e := by
  induction lines with
  | nil => rintro g - ⟨line, hmem, -⟩; cases hmem
  | cons line lines ih =>
      rintro g hg ⟨line', hmem, hdrop⟩
      rw [List.map_cons, run_cons]
      cases hline : isDrop line with
      | true =>
          cases line with
          | drop time packets bytes => exact ⟨_, by rw [readLine_render hg]; rfl⟩
          | arrival time size => cases hline
          | opportunity time size => cases hline
          | departure time size delay queueSize => cases hline
      | false =>
          rw [readLine_ok hg hline, ok_bind]
          rcases List.mem_cons.mp hmem with rfl | hmem
          · rw [hdrop] at hline
            cases hline
          · exact ih hg ⟨line', hmem, hdrop⟩

end LogReader

/-- A log is read as it was recorded exactly when it has no drop, and no departure but of delay 0. -/
theorem agrees_iff {h : LogHeader} {lines : List LogLine} : Agrees h lines ↔
    ∀ line ∈ lines, LogReader.isDrop line = false ∧ line.recorded = LogReader.decoded line := by
  have hread : LogReader.read (h.render ++ lines.map LogLine.render) =
      run LogReader.readLine (lines.map LogLine.render) { baseTimestamp := some 0 } := by
    rw [LogReader.read, run_append]
    exact congrArg (· >>= _) (LogReader.read_header h)
  unfold Agrees
  rw [hread]
  by_cases hdrop : ∃ line ∈ lines, LogReader.isDrop line = true
  · obtain ⟨e, he⟩ := LogReader.read_drop (g := { baseTimestamp := some 0 }) rfl hdrop
    obtain ⟨line, hmem, hline⟩ := hdrop
    constructor
    · rintro ⟨g, hg, -⟩
      cases he.symm.trans hg
    · intro hall
      rw [(hall line hmem).1] at hline
      cases hline
  · have hnone : ∀ line ∈ lines, LogReader.isDrop line = false := fun line hmem => by
      simpa using fun hline => hdrop ⟨line, hmem, hline⟩
    rw [LogReader.read_lines rfl hnone]
    constructor
    · rintro ⟨g, hg, hevents, -⟩ line hmem
      cases hg
      refine ⟨hnone line hmem, ?_⟩
      have := List.map_inj_left.mp (by simpa using hevents) line hmem
      exact this.symm
    · intro hall
      refine ⟨_, rfl, ?_, ?_⟩
      · simpa using fun line hmem => ((hall line hmem).2).symm
      · simpa using List.filterMap_congr fun line hmem =>
          congrArg LogReader.Event.delay (hall line hmem).2.symm

/-! ### The lines of a run -/

namespace LinkQueue

open AbstractPacketQueue

variable {sched : Schedule} {Q : Type} [AbstractPacketQueue Q]

/-- Every packet in the link arrived when `early` says, and every departure logged took time. -/
structure Delayed (C : PacketContract Q) (early : Nat → Prop) (s : LinkQueue sched Q) : Prop where
  held : ∀ x ∈ C.held s.packetQueue, early x.1
  transit : 0 < s.packetInTransitBytesLeft → early s.packetInTransit.arrivalTime
  log : ∀ lines, s.log = some lines →
    ∀ t size delay queueSize, .departure t size delay queueSize ∈ lines → 1 ≤ delay

variable {C : PacketContract Q} {early : Nat → Prop}

theorem Delayed.imp {early' : Nat → Prop} {s : LinkQueue sched Q} (h : Delayed C early s)
    (himp : ∀ a, early a → early' a) : Delayed C early' s :=
  ⟨fun x hx => himp _ (h.held x hx), fun hpos => himp _ (h.transit hpos), h.log⟩

theorem load_delayed {now : Nat} {s s' : LinkQueue sched Q} (h : Delayed C early s)
    (hbusy : ¬ (s.packetInTransitBytesLeft = 0 ∧ empty s.packetQueue))
    (hload : s.load now = .ok s') : Delayed C early s' := by
  rcases load_ok hload with ⟨hidle, p, q, hd, rfl⟩ | ⟨-, rfl⟩
  · have hempty : empty s.packetQueue = false := by simpa [hidle] using hbusy
    have hheld := C.dequeue_held hempty hd
    exact ⟨fun x hx => h.held x (Multiset.mem_of_le hheld (Multiset.mem_cons_of_mem hx)),
      fun _ => h.held p.entry (Multiset.mem_of_le hheld (Multiset.mem_cons_self _ _)), h.log⟩
  · exact h

theorem sendSome_delayed {now t bytesLeft : Nat} {s : LinkQueue sched Q}
    (h : Delayed C (· < t) s) (hbusy : ¬ (s.packetInTransitBytesLeft = 0 ∧ empty s.packetQueue)) :
    Ensures (fun _ => True) (fun r => Delayed C (· < t) r.2) (s.sendSome now t bytesLeft) := by
  refine sendSome_ensures (ensures_iff.mpr fun s₁ hload => ensures_iff.mpr fun _ hcheck => ?_)
  have h₁ := load_delayed h hbusy hload
  have hpos := checkInTransit_pos hcheck
  refine ⟨fun _ => ⟨h₁.held, fun _ => h₁.transit hpos, h₁.log⟩,
    fun _ => ensures_iff.mpr fun s₂ hs₂ => ?_⟩
  obtain ⟨queueSize, _, _, rfl⟩ := depart_log hs₂
  refine ⟨h₁.held, fun hleft => absurd hleft (Nat.lt_irrefl 0), fun lines hlines => ?_⟩
  obtain ⟨old, hold, rfl⟩ := Option.map_eq_some_iff.mp hlines
  intro u size delay qs hmem
  rcases List.mem_append.mp hmem with hmem | hmem
  · exact h₁.log old hold u size delay qs hmem
  · cases List.mem_singleton.mp hmem
    have := h₁.transit hpos
    dsimp only
    omega

theorem burn_delayed {now t : Nat} {s : LinkQueue sched Q} (hs : OnSchedule s)
    (h : Delayed C s.Early s) (ht : s.nextDeliveryTime = some t) :
    Ensures (fun _ => True) (fun s' => Delayed C s'.Early s') (s.burn now t) := by
  have huse : Delayed C (· < t) s.useADeliveryOpportunity := by
    have h' : Delayed C (· < t) s := h.imp fun a ha => ha t ht
    obtain ⟨_, _, _, _, hframe⟩ := useADeliveryOpportunity_frame s
    have hlog := useADeliveryOpportunity_log s
    refine ⟨?_, by rw [hframe]; exact h'.transit, fun lines hlines => ?_⟩
    · rw [hframe]
      exact fun x hx => h'.held x (Multiset.mem_of_le (C.setBandwidth_held _ _) hx)
    · rw [hlog] at hlines
      obtain ⟨old, hold, rfl⟩ := Option.map_eq_some_iff.mp hlines
      intro u size delay qs hmem
      rcases List.mem_append.mp hmem with hmem | hmem
      · exact h'.log old hold u size delay qs hmem
      · cases List.mem_singleton.mp hmem
  have hserve : Ensures (fun _ => True) (fun s' => Delayed C (· < t) s') (s.burn now t) := by
    refine burn_ensures ((serve_ensures (P := fun _ _ s => Delayed C (· < t) s)
      (R := fun r : Nat × LinkQueue sched Q => Delayed C (· < t) r.2)
      (fun _ _ _ _ hs hbusy => (sendSome_delayed hs hbusy).mono fun r hr _ => hr)
      (fun _ _ hs => hs) (fun _ _ _ _ hs _ _ => ⟨hs.held, hs.transit, hs.log⟩) le_rfl huse).mono
      fun r hr => ⟨hr.held, hr.transit, hr.log⟩)
  refine ensures_iff.mpr fun s' hs' => ?_
  have hadv := (burn_advanced now hs ht).of_ok hs'
  exact (hserve.of_ok hs').imp fun a ha => hadv.early hs ht ha

theorem enqueuePacket_delayed {now : Nat} {contents : Payload} {s s' : LinkQueue sched Q}
    (h : Delayed C s.Early s) (hearly : s.Early now) (henq : s.enqueuePacket now contents = .ok s') :
    Delayed C s'.Early s' := by
  obtain ⟨q, _, _, _, _, -, -, hq, -, -, -, -, rfl⟩ := enqueuePacket_log henq
  refine ⟨fun x hx => ?_, h.transit, fun lines hlines => ?_⟩
  · rcases Multiset.mem_cons.mp (Multiset.mem_of_le (C.enqueue_held hq) hx) with rfl | hx
    · exact hearly
    · exact h.held x hx
  · obtain ⟨old, hold, rfl⟩ := Option.map_eq_some_iff.mp hlines
    intro u size delay qs hmem
    rcases List.mem_append.mp hmem with hmem | hmem
    · exact h.log old hold u size delay qs hmem
    · unfold missing at hmem
      split at hmem <;> simp at hmem

/-- Every departure that a run logs is later than the packet's arrival. -/
theorem run_delayed {repeats : Bool} {q : Q} {calls : List Call} {s : LinkQueue sched Q}
    (hempty : C.held q = 0) (hrun : run Call.step calls (ofArgs sched repeats true q) = .ok s) :
    Delayed C s.Early s :=
  ((run_keeps (E := fun _ => True) (P := fun s => Delayed C s.Early s) trivial
    (fun _ _ _ hs h ht _ => burn_delayed hs h ht)
    (fun _ _ _ _ _ h hearly _ => ensures_iff.mpr fun _ => enqueuePacket_delayed h hearly)
    (fun _ h => ⟨h.held, h.transit, h.log⟩) (onSchedule_ofArgs repeats true q)
    ⟨fun x hx => by
        change x ∈ C.held q at hx
        rw [hempty] at hx
        exact absurd hx (Multiset.notMem_zero x),
      fun hpos => absurd hpos (Nat.lt_irrefl 0), fun lines hlines => by
        cases hlines
        nofun⟩).of_ok hrun).1

/-- **The log of a run is read as it was recorded exactly when nothing departed and nothing was
dropped.** -/
theorem log_read_iff {h : LogHeader} {repeats : Bool} {a : QueueArgs} {calls : List Call}
    {s : LinkQueue sched Discipline} {lines : List LogLine}
    (hrun : run Call.step calls (ofArgs sched repeats true a.make) = .ok s)
    (hlog : s.log = some lines) :
    Agrees h lines ↔ ∀ line ∈ lines,
      line.recorded.kind = .arrival ∨ line.recorded.kind = .opportunity := by
  have hdelayed : Delayed Discipline.fifo.contract s.Early s := by
    refine run_delayed ?_ hrun
    show CountedQueue.held a.make.counted = 0
    rw [Discipline.counted_make]
    rfl
  rw [agrees_iff]
  refine forall₂_congr fun line hmem => ?_
  cases line with
  | arrival t size => exact iff_of_true ⟨rfl, rfl⟩ (.inl rfl)
  | opportunity t size => exact iff_of_true ⟨rfl, rfl⟩ (.inr rfl)
  | drop t packets bytes => exact iff_of_false (fun h => nomatch h.1) (by rintro (h | h) <;> cases h)
  | departure t size delay queueSize =>
      refine iff_of_false (fun ⟨_, heq⟩ => ?_) (by rintro (h | h) <;> cases h)
      have hpos := hdelayed.log lines hlog t size delay queueSize hmem
      have hdelay : (delay : Int) = 0 := Option.some.inj (congrArg LogReader.Event.delay heq)
      omega

/-- The header of a log of the infinite queue. -/
def upLog : LogHeader :=
  { linkName := "Uplink".toList, filename := "up".toList, logfile := "up.log".toList,
    commandLine := "mm-link up down".toList, queue := "infinite".toList, initTimestamp := 5,
    config := none, unbroken := by decide }

def oneDeparture : List Call := [.readPacket 0 (List.replicate 44 0), .waitTime 10]

/-- A delay of 10 is read as 0, and a drop ends the reading. -/
theorem log_misread :
    (∃ (s : LinkQueue everyTen Discipline) (lines : List LogLine) (g : LogReader.Graph),
      run Call.step oneDeparture (ofArgs everyTen true true QueueArgs.infinite.make) = .ok s ∧
      s.log = some lines ∧ (lines.filterMap fun line => line.recorded.delay) = [10] ∧
      LogReader.read (upLog.render ++ lines.map LogLine.render) = .ok g ∧ g.delays = [0]) ∧
    ∃ (s : LinkQueue everyTen Discipline) (lines : List LogLine),
      run Call.step sharedOpportunity (ofArgs everyTen true true
        (QueueArgs.make (.dropTail ⟨1, 0, false, 0, by decide⟩))) = .ok s ∧
      s.log = some lines ∧ LogReader.read (upLog.render ++ lines.map LogLine.render) =
        .error (.unknownEventType ['d']) := by
  constructor
  · obtain ⟨s, hs, hlog⟩ := of_map_ok
      (x := run Call.step oneDeparture (ofArgs everyTen true true QueueArgs.infinite.make))
      (f := fun s => s.log)
      (b := some [.arrival 0 44, .opportunity 10 1504, .departure 10 44 10 0]) (by decide +kernel)
    obtain ⟨g, hg, hdelays⟩ := of_map_ok (x := LogReader.read (upLog.render ++ List.map LogLine.render
        [.arrival 0 44, .opportunity 10 1504, .departure 10 44 10 0]))
      (f := fun g => g.delays) (b := [0]) (by decide +kernel)
    exact ⟨s, _, g, hs, hlog, by decide, hg, hdelays⟩
  · obtain ⟨s, hs, hlog⟩ := of_map_ok (x := run Call.step sharedOpportunity (ofArgs everyTen true true
        (QueueArgs.make (.dropTail ⟨1, 0, false, 0, by decide⟩))))
      (f := fun s => s.log)
      (b := some [.arrival 0 1000, .arrival 0 1000, .drop 0 1 1000, .opportunity 10 1504,
        .departure 10 1000 10 0, .opportunity 20 1504]) (by decide +kernel)
    exact ⟨s, _, hs, hlog, by decide +kernel⟩

/-- An arrival, and an opportunity that finds the queue empty. -/
theorem log_read_iff_oneArrival : ∃ (s : LinkQueue everyTen Discipline) (lines : List LogLine),
    run Call.step [.waitTime 10, .readPacket 12 (List.replicate 44 0)]
      (ofArgs everyTen true true QueueArgs.infinite.make) = .ok s ∧
    s.log = some lines ∧ lines = [.opportunity 10 1504, .arrival 12 44] ∧
    (Agrees upLog lines ↔ ∀ line ∈ lines,
      line.recorded.kind = .arrival ∨ line.recorded.kind = .opportunity) := by
  obtain ⟨s, hs, hlog⟩ := of_map_ok
    (x := run Call.step [.waitTime 10, .readPacket 12 (List.replicate 44 0)]
      (ofArgs everyTen true true QueueArgs.infinite.make))
    (f := fun s => s.log) (b := some [.opportunity 10 1504, .arrival 12 44]) (by decide +kernel)
  exact ⟨s, _, hs, hlog, rfl, log_read_iff hs hlog⟩

end LinkQueue

end Mahimahi
