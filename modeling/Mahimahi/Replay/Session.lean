import Mathlib.Data.List.Forall2
import Mahimahi.Http.Transparency
import Mahimahi.Replay.Server
import Mahimahi.Util.Descriptor

/-!
# Replay — a recorded session, replayed

A proxy saves every response that it passes on, with its request; `replayserver` answers from the
files, and Apache's `deepcgi_handler` copies what it prints.  So a client that asks again what was
asked while recording gets the bytes that the proxy wrote then.

* `deliver_spec`: the handler copies the whole output, or fails after a part of it.
* `session_replayed`: for a recording in which the same question never got two answers.
-/

open Fallible

namespace Mahimahi

open Search Ezio Nearest

/-! ### Saving -/

/-- `HTTPDiskStore::save`: what goes into the new file. -/
def HTTPDiskStore.output (serverPort : Nat) (request response : Record) : RequestResponse where
  scheme := if serverPort = 443 then .https else .http
  request := request
  response := response

/-- A connection that was recorded. -/
structure RecordedSession where
  serverPort : Nat
  events : List ProxyEvent
  last : Connection
  ran : run Connection.step events {} = .ok last

/-- What was saved, in order. -/
def RecordedSession.exchanges (s : RecordedSession) : List RequestResponse :=
  s.last.saved.map fun p => HTTPDiskStore.output s.serverPort p.1 p.2

/-- The client got the responses that were saved. -/
theorem RecordedSession.written_eq (s : RecordedSession) :
    s.last.writtenToClient = s.exchanges.flatMap fun x => (served x).output := by
  obtain ⟨sent, answered, hpassed⟩ := Connection.run_passedOn s.ran
  rw [exchanges, hpassed.saved, hpassed.toClient, List.map_map, List.flatMap_map]
  rfl

/-! ### Copying -/

def HUGE_STRING_LEN : Nat := 8192

/-- What the handler has passed on, and whether it returns `OK`. -/
structure Delivery where
  passed : Bytes
  ok : Bool
  deriving DecidableEq, Repr

/-- The inner loop, for what is left of `line`.  Call number `n` of `ap_rwrite` takes up to `k + 1`
bytes if `rwrite n` is `some k`, and fails if it is `none`.  The result has the calls so far. -/
def writeLine (rwrite : Nat → Option Nat) (n : Nat) : Bytes → Nat × Delivery
  | [] => (n, ⟨[], true⟩)
  | b :: line =>
      match rwrite n with
      | none => (n + 1, ⟨[], false⟩)
      | some k =>
          let r := writeLine rwrite (n + 1) (line.drop k)
          (r.1, ⟨b :: line.take k ++ r.2.passed, r.2.ok⟩)
termination_by line => line.length

/-- The outer loop, for what `replayserver` has printed and `fread` has not returned yet. -/
def deliver (rwrite : Nat → Option Nat) (n : Nat) (output : Bytes) : Delivery :=
  let r := writeLine rwrite n (output.take HUGE_STRING_LEN)
  if r.2.ok = false then r.2
  else if _h : (output.take HUGE_STRING_LEN).length = HUGE_STRING_LEN then
    let rest := deliver rwrite r.1 (output.drop HUGE_STRING_LEN)
    ⟨r.2.passed ++ rest.passed, rest.ok⟩
  else r.2
termination_by output.length
decreasing_by
  rw [List.length_take] at _h
  rw [List.length_drop]
  unfold HUGE_STRING_LEN at *
  omega

theorem writeLine_spec (rwrite : Nat → Option Nat) (n : Nat) (line : Bytes) :
    (writeLine rwrite n line).2.passed <+: line ∧
      ((writeLine rwrite n line).2.ok = true → (writeLine rwrite n line).2.passed = line) ∧
      ((∀ k, rwrite k ≠ none) → (writeLine rwrite n line).2.ok = true) := by
  induction hlength : line.length using Nat.strongRecOn generalizing n line with
  | ind size ih =>
      subst hlength
      cases line with
      | nil =>
          rw [writeLine]
          exact ⟨List.prefix_rfl, fun _ => rfl, fun _ => rfl⟩
      | cons b line =>
          rw [writeLine]
          cases hroom : rwrite n with
          | none =>
              dsimp only
              exact ⟨List.nil_prefix, (fun h => nomatch h), fun h => absurd hroom (h n)⟩
          | some k =>
              dsimp only
              obtain ⟨hpre, hall, hok⟩ := ih (line.drop k).length
                (by rw [List.length_drop, List.length_cons]; omega) (n + 1) (line.drop k) rfl
              have hsplit : b :: line = (b :: line.take k) ++ line.drop k := by
                rw [List.cons_append, List.take_append_drop]
              refine ⟨?_, fun h => ?_, hok⟩
              · conv => rhs; rw [hsplit]
                exact (List.prefix_append_right_inj _).mpr hpre
              · conv => rhs; rw [hsplit]
                exact congrArg _ (hall h)

/-- **What the handler copies.** -/
theorem deliver_spec (rwrite : Nat → Option Nat) (n : Nat) (output : Bytes) :
    (deliver rwrite n output).passed <+: output ∧
      ((deliver rwrite n output).ok = true → (deliver rwrite n output).passed = output) ∧
      ((∀ k, rwrite k ≠ none) → (deliver rwrite n output).ok = true) := by
  induction hlength : output.length using Nat.strongRecOn generalizing n output with
  | ind size ih =>
      subst hlength
      obtain ⟨hpre, hall, hok⟩ := writeLine_spec rwrite n (output.take HUGE_STRING_LEN)
      have hsplit : output = output.take HUGE_STRING_LEN ++ output.drop HUGE_STRING_LEN :=
        (List.take_append_drop _ _).symm
      rw [deliver]
      split
      next hfailed =>
        refine ⟨hpre.trans (List.take_prefix _ _), fun h => ?_, fun h => ?_⟩
        · rw [hfailed] at h
          cases h
        · rw [hok h] at hfailed
          cases hfailed
      next hwritten =>
        have hline := hall (Bool.eq_true_of_not_eq_false hwritten)
        split
        next hfull =>
          obtain ⟨hpre', hall', hok'⟩ := ih (output.drop HUGE_STRING_LEN).length (by
            rw [List.length_take] at hfull
            rw [List.length_drop]
            unfold HUGE_STRING_LEN at *
            omega) (writeLine rwrite n (output.take HUGE_STRING_LEN)).1
              (output.drop HUGE_STRING_LEN) rfl
          refine ⟨?_, fun h => ?_, hok'⟩
          · conv => rhs; rw [hsplit]
            rw [hline]
            exact (List.prefix_append_right_inj _).mpr hpre'
          · conv => rhs; rw [hsplit]
            rw [hline]
            exact congrArg _ (hall' h)
        next hshort =>
          have hwhole : output.take HUGE_STRING_LEN = output := by
            refine List.take_of_length_le ?_
            rw [List.length_take] at hshort
            omega
          rw [hwhole] at hpre hline hok
          rw [hwhole]
          exact ⟨hpre, fun _ => hline, hok⟩

/-! ### Asking again -/

/-- The same question, as far as `replayserver` can tell. -/
structure Alike (x y : RequestResponse) : Prop where
  scheme : x.scheme = y.scheme
  host : headerValue (ascii "Host") x.request.headers = headerValue (ascii "Host") y.request.headers
  userAgent : headerValue (ascii "User-Agent") x.request.headers =
    headerValue (ascii "User-Agent") y.request.headers
  line : x.request.firstLine = y.request.firstLine

/-- Apache reads the request of a record again. -/
structure Asks (w : Worker) (x : RequestResponse) (r : RequestRec) : Prop where
  handler : r.forDeepcgi = true
  line : ∃ method uri protocol, r.method = some method ∧ r.unparsedUri = some uri ∧
    r.protocol = some protocol ∧ 63 ∉ method ∧
    x.request.firstLine = method ++ ascii " " ++ uri ++ ascii " " ++ protocol
  host : r.hostname = headerValue (ascii "Host") x.request.headers
  userAgent : r.userAgent = headerValue (ascii "User-Agent") x.request.headers
  scheme : x.scheme = if w.optfnIsHttps && r.isHttps then .https else .http

/-- A worker process gives `replayserver` the environment `seen` for the request of `x`.  It may
have served other requests, as long as they left nothing behind that this one does not set. -/
def AskedAgain (w : Worker) (env₀ : Environment) (x : RequestResponse) (seen : ProcessEnvironment) :
    Prop :=
  ∃ r earlier env, Asks w x r ∧ run w.serve earlier env₀ = .ok env ∧
    w.deepcgiHandler r env = .ok (some seen.vars) ∧
    ¬ w.Leftover env₀ earlier r .httpUserAgent ∧ ¬ w.Leftover env₀ earlier r .https

/-- The recording directory holds what the sessions saved, in any order. -/
structure Recorded (m : Machine) (w : Worker) (sessions : List RecordedSession) : Prop where
  unprivileged : m.root = false
  working : ∃ dir, w.workingDir = some dir ∧ m.chdir dir = .ok ()
  directory : ∃ dir entries records, w.recordingDir = some dir ∧ m.readdir dir = .ok entries ∧
    (Machine.filenames dir entries).mapM m.load = .ok records ∧
    records.Perm (sessions.flatMap RecordedSession.exchanges)

variable {w : Worker} {m : Machine} {env₀ : Environment} {x : RequestResponse}
  {seen : ProcessEnvironment} {sessions : List RecordedSession} {records : List RequestResponse}

/-- What a request that left nothing behind sees of an environment that says nothing. -/
theorem askedAgain_getenv (hagent : env₀ .httpUserAgent = none) (hhttps : env₀ .https = none)
    (h : AskedAgain w env₀ x seen) :
    ∃ r, Asks w x r ∧ ∀ v, (getenv v seen.vars) = w.written r v := by
  obtain ⟨r, earlier, env, hasks, hearlier, hseen, hnoAgent, hnoHttps⟩ := h
  obtain ⟨-, hall, hvars⟩ := Worker.deepcgiHandler_some.mp hseen
  obtain rfl := Worker.run_serve hearlier
  refine ⟨r, hasks, fun v => ?_⟩
  rw [hvars]
  show (w.written r v).or _ = _
  cases hconditional : v.conditional with
  | false => exact Option.or_of_isSome (hall v hconditional)
  | true =>
      cases v with
      | httpUserAgent =>
          rw [Worker.same_iff_not_leftover.mpr hnoAgent, hagent, Option.or_none]
      | https => rw [Worker.same_iff_not_leftover.mpr hnoHttps, hhttps, Option.or_none]
      | _ => cases hconditional

theorem askedAgain_matches (hagent : env₀ .httpUserAgent = none) (hhttps : env₀ .https = none)
    (h : AskedAgain w env₀ x seen) : Matches seen.vars x.request.firstLine x := by
  obtain ⟨r, hasks, hvars⟩ := askedAgain_getenv hagent hhttps h
  refine ⟨?_, ?_, ?_, rfl⟩
  · rw [hvars, hasks.scheme]
    cases hs : w.optfnIsHttps && r.isHttps <;> simp [Worker.written, hs]
  · rw [hvars]
    exact hasks.host.symm
  · rw [hvars]
    exact hasks.userAgent.symm

/-- `replayserver` comes to its loop. -/
theorem askedAgain_starts (hagent : env₀ .httpUserAgent = none) (hhttps : env₀ .https = none)
    (h : AskedAgain w env₀ x seen) (hm : Recorded m w sessions) :
    ∃ method records, 63 ∉ method ∧ records.Perm (sessions.flatMap RecordedSession.exchanges) ∧
      Starts m seen method x.request.firstLine records := by
  obtain ⟨r, hasks, hvars⟩ := askedAgain_getenv hagent hhttps h
  obtain ⟨method, uri, protocol, hmethod, huri, hprotocol, hmark, hline⟩ := hasks.line
  obtain ⟨workingDir, hworking, hchdir⟩ := hm.working
  obtain ⟨recordingDir, entries, records, hrecording, hreaddir, hload, hperm⟩ := hm.directory
  exact ⟨method, records, hmark, hperm,
    { unprivileged := hm.unprivileged
      directory := ⟨workingDir, (hvars _).trans hworking, hchdir⟩
      line := ⟨(hvars _).trans hmethod, uri, protocol, (hvars _).trans huri,
        (hvars _).trans hprotocol, hline⟩
      recorded := ⟨recordingDir, entries, (hvars _).trans hrecording, hreaddir, hload⟩ }⟩

/-- **The answer to a question that was recorded** is a response to the same question. -/
theorem replayserver_alike {method : Bytes} (h : Starts m seen method x.request.firstLine records)
    (hmark : 63 ∉ method) (hx : x ∈ records)
    (hmatch : Matches seen.vars x.request.firstLine x)
    (hlines : ∀ y ∈ records, IsRequestLine y.request.firstLine) :
    ∃ y ∈ records, Alike x y ∧ replayserver m seen = .ok (served y) := by
  obtain ⟨c, rest, hline, hc⟩ := h.begins hmark
  obtain ⟨hnone, hfound⟩ := @nearest _ _ _ (Matches seen.vars x.request.firstLine) _
    (·.request.firstLine) x.request.firstLine records {}
    fun y hy => by
      rw [hline] at hy ⊢
      exact hy.scores hc
  have hscore : 0 < (chosen seen.vars x.request.firstLine records).1 :=
    Nat.pos_of_ne_zero fun hzero => hnone.mp hzero x hx hmatch
  obtain ⟨hmem, hmatch', hlongest⟩ := hfound hscore
  refine ⟨_, hmem, ⟨hmatch.scheme.trans hmatch'.scheme.symm, hmatch.host.trans hmatch'.host.symm,
    hmatch.userAgent.trans hmatch'.userAgent.symm, ?_⟩, ?_⟩
  · have hline := hlines x hx
    exact hline.eq_of_prefix (hlines _ hmem)
      (hlongest x hx hmatch _ List.prefix_rfl List.prefix_rfl)
  · rw [h.replayserver_eq, if_pos hscore]
    rfl

/-- What the handler makes of an answer, when `ap_rwrite` does not fail. -/
def Copies (answer : Answer) (d : Delivery) : Prop :=
  ∃ rwrite : Nat → Option Nat, (∀ k, rwrite k ≠ none) ∧ d = deliver rwrite 0 answer.output

/-- **A recorded session is replayed as it was.**  If the same question never got two answers, a
client that asks for everything that a session saved gets the bytes that it got while recording. -/
theorem session_replayed (hm : Recorded m w sessions)
    (hlines : ∀ x ∈ sessions.flatMap RecordedSession.exchanges, IsRequestLine x.request.firstLine)
    (hone : ∀ x ∈ sessions.flatMap RecordedSession.exchanges,
      ∀ y ∈ sessions.flatMap RecordedSession.exchanges, Alike x y → x.response = y.response)
    {s : RecordedSession} (hs : s ∈ sessions)
    (hagent : env₀ .httpUserAgent = none) (hhttps : env₀ .https = none)
    {asked : List ProcessEnvironment}
    (hasked : List.Forall₂ (AskedAgain w env₀) s.exchanges asked) :
    ∃ answers, asked.mapM (replayserver m) = .ok answers ∧
      (∀ a ∈ answers, a.success = true) ∧
      ∀ deliveries, List.Forall₂ Copies answers deliveries →
        (∀ d ∈ deliveries, d.ok = true) ∧
        deliveries.flatMap Delivery.passed = s.last.writtenToClient := by
  have hexchanges : ∀ x ∈ s.exchanges, x ∈ sessions.flatMap RecordedSession.exchanges :=
    fun x hx => List.mem_flatMap.mpr ⟨s, hs, hx⟩
  rw [s.written_eq]
  clear hs
  generalize s.exchanges = exchanges at hasked hexchanges ⊢
  induction hasked with
  | nil => exact ⟨[], rfl, by simp, fun deliveries h => by cases h; simp⟩
  | @cons x seen xs asked hfirst _ ih =>
      obtain ⟨hx, hxs⟩ := List.forall_mem_cons.mp hexchanges
      obtain ⟨answers, hanswers, hsuccess, hdeliver⟩ := ih hxs
      obtain ⟨method, records, hmark, hperm, hstarts⟩ := askedAgain_starts hagent hhttps hfirst hm
      obtain ⟨y, hy, halike, hanswer⟩ := replayserver_alike hstarts hmark (hperm.mem_iff.mpr hx)
        (askedAgain_matches hagent hhttps hfirst) fun y hy => hlines y (hperm.mem_iff.mp hy)
      refine ⟨served y :: answers, ?_, List.forall_mem_cons.mpr ⟨rfl, hsuccess⟩, ?_⟩
      · rw [List.mapM_cons, hanswer, ok_bind, hanswers]
        rfl
      · intro deliveries hcopies
        cases hcopies with
        | @cons _ d _ ds hd hds =>
            obtain ⟨hok, hpassed⟩ := hdeliver ds hds
            obtain ⟨rwrite, hrwrite, rfl⟩ := hd
            obtain ⟨-, hall, hfine⟩ := deliver_spec rwrite 0 (served y).output
            have hsame : (served y).output = (served x).output := by
              rw [served, served, hone x hx y (hperm.mem_iff.mp hy) halike]
            refine ⟨List.forall_mem_cons.mpr ⟨hfine hrwrite, hok⟩, ?_⟩
            rw [List.flatMap_cons, List.flatMap_cons, hpassed, hall (hfine hrwrite), hsame]

/-! ### One exchange, recorded and replayed -/

def onePage : RequestResponse :=
  HTTPDiskStore.output 80
    { firstLine := ascii "GET / HTTP/1.1", headers := [⟨ascii "Host", ascii "a"⟩], body := [] }
    { firstLine := ascii "HTTP/1.1 200 OK", headers := [⟨ascii "Content-Length", ascii "2"⟩]
      body := ascii "ok" }

/-- The client's bytes, and the server's. -/
def onePageEvents : List ProxyEvent :=
  [.clientIn (ascii "GET / HTTP/1.1" ++ CRLF ++ ascii "Host: a" ++ CRLF ++ CRLF), .serverOut,
   .serverIn (ascii "HTTP/1.1 200 OK" ++ CRLF ++ ascii "Content-Length: 2" ++ CRLF ++ CRLF ++
     ascii "ok"), .clientOut]

def onePageMachine : Machine where
  root := false
  chdir _ := .ok ()
  readdir _ := .ok [ascii ".", ascii "save1", ascii ".."]
  parse _ := .ok (some onePage)

def onePageWorker : Worker where
  workingDir := some (ascii "/")
  recordingDir := some (ascii "/rec/")
  optfnIsHttps := true

def onePageRequest : RequestRec where
  handler := some (ascii "deepcgi-handler")
  method := some (ascii "GET")
  unparsedUri := some (ascii "/")
  protocol := some (ascii "HTTP/1.1")
  hostname := some (ascii "a")
  userAgent := none
  isHttps := false

theorem onePage_short (v : EnvVar) (x : Bytes)
    (h : getenv v (onePageWorker.written onePageRequest) = some x) : x.length < MAX_ARG_STRLEN := by
  have hall : (onePageWorker.written onePageRequest v).all (·.length < MAX_ARG_STRLEN) = true := by
    cases v <;> decide +kernel
  rw [show onePageWorker.written onePageRequest v = some x from h] at hall
  simpa using hall

theorem onePage_askedAgain : AskedAgain onePageWorker (fun _ => none) onePage
    ⟨onePageWorker.written onePageRequest, onePage_short⟩ := by
  refine ⟨onePageRequest, [], fun _ => none, ⟨by decide +kernel, ?_, by decide +kernel,
    by decide +kernel, by decide +kernel⟩, rfl, ?_, ?_, ?_⟩
  · exact ⟨_, _, _, rfl, rfl, rfl, by decide +kernel, by decide +kernel⟩
  · refine Worker.deepcgiHandler_some.mpr ⟨by decide +kernel, fun v hv => ?_, funext fun v => ?_⟩
    · cases v <;> first | rfl | cases hv
    · exact (Option.or_none).symm
  · simp [Worker.Leftover, Worker.latest]
  · simp [Worker.Leftover, Worker.latest]

theorem session_replayed_onePage : ∃ s : RecordedSession, s.events = onePageEvents ∧
    ∃ answer, replayserver onePageMachine ⟨onePageWorker.written onePageRequest, onePage_short⟩ =
      .ok answer ∧ (deliver (fun _ => some 3) 0 answer.output).passed = s.last.writtenToClient := by
  have hrun : (run Connection.step onePageEvents {}).map (·.saved) =
      .ok [(onePage.request, onePage.response)] := by decide +kernel
  obtain ⟨last, hlast, hsaved⟩ := of_map_ok hrun
  have hexchanges : (⟨80, onePageEvents, last, hlast⟩ : RecordedSession).exchanges = [onePage] := by
    rw [RecordedSession.exchanges, hsaved]
    rfl
  have hall : ∀ x ∈ [⟨80, onePageEvents, last, hlast⟩].flatMap RecordedSession.exchanges,
      x = onePage := by
    rw [List.flatMap_singleton, hexchanges]
    simp
  have hline : IsRequestLine onePage.request.firstLine :=
    ⟨ascii "GET", ascii "/", 49, 49, by decide +kernel, by decide +kernel, by decide, by decide,
      by decide +kernel⟩
  obtain ⟨answers, hanswers, -, hdeliver⟩ := @session_replayed onePageWorker onePageMachine
    (fun _ => none) [⟨80, onePageEvents, last, hlast⟩]
    ⟨rfl, ⟨_, rfl, rfl⟩, ⟨_, _, [onePage], rfl, rfl, by decide +kernel,
      by rw [List.flatMap_singleton, hexchanges]⟩⟩
    (fun x hx => hall x hx ▸ hline) (fun x hx y hy _ => by rw [hall x hx, hall y hy])
    _ List.mem_cons_self rfl rfl _
    (hexchanges ▸ List.Forall₂.cons onePage_askedAgain .nil)
  rw [List.mapM_cons] at hanswers
  obtain ⟨answer, hanswer, hanswers⟩ := bind_ok.mp hanswers
  cases hanswers
  refine ⟨⟨80, onePageEvents, last, hlast⟩, rfl, answer, hanswer, ?_⟩
  obtain ⟨-, hpassed⟩ := hdeliver [deliver (fun _ => some 3) 0 answer.output]
    (.cons ⟨fun _ => some 3, fun _ => Option.some_ne_none 3, rfl⟩ .nil)
  exact (List.flatMap_singleton _ _).symm.trans hpassed

end Mahimahi
