import Mahimahi.Http.Response
import Mahimahi.Library.Nearest
import Mahimahi.Replay.Environment

/-!
# Replay — which record is served

`replayserver` goes once over the files of the recording directory, gives every saved record a
score, and keeps the best.  `matchScore` is 0 for a record that does not match, and otherwise what
its first line has in common with the request line.

* `matchScore_eq`: for a request line that an environment can hold, the loop of `match_score` ends
  with the length of the longest common prefix.
* `replayserver_answers`: with a method without a question mark, the answer is 404 exactly when no
  record matches, and otherwise a matching record that has the most in common with the request line.
  Among request lines of the usual form, that is the line itself when it was recorded.
-/

open Fallible MachineInt

namespace Mahimahi

open Search Ezio Nearest

/-- `RequestResponse_Scheme` -/
inductive Scheme where
  | http
  | https
  deriving DecidableEq, Repr

/-- `MahimahiProtobufs::RequestResponse`, as its accessors read it: a new one is empty, and its
scheme is the first of the two. -/
structure RequestResponse where
  scheme : Scheme := .http
  request : Record := { firstLine := [], headers := [], body := [] }
  response : Record := { firstLine := [], headers := [], body := [] }
  deriving DecidableEq, Repr

/-- What stops `replayserver`. All but the last two are exceptions, which it answers with a 500. -/
inductive ReplayError where
  /-- `BUG: privileges not dropped in sensitive region` -/
  | privileges
  /-- `missing environment variable: ` and the name -/
  | missingVariable (key : EnvVar)
  /-- a `unix_error`: what was attempted, and the text of `errno` -/
  | unixError (attempt reason : Bytes)
  /-- the name of the file and `: invalid HTTP request/response` -/
  | invalidRecord (filename : Bytes)
  /-- what the HTTP classes throw, or an assertion of theirs -/
  | http (e : HTTPError)
  /-- a loop that never ends -/
  | endless
  deriving DecidableEq, Repr

/-! ### Around the program -/

/-- The longest string that `execve` takes, with its terminating zero: 32 pages. -/
def MAX_ARG_STRLEN : Nat := 131072

/-- The environment of a program: `execve` has taken every string of it. -/
structure ProcessEnvironment where
  vars : Environment
  short : ∀ v x, getenv v vars = some x → x.length < MAX_ARG_STRLEN

/-- What the system calls return; what fails returns the text of `errno`. -/
structure Machine where
  /-- the effective user or group is root -/
  root : Bool
  chdir : Bytes → Except Bytes Unit
  /-- the names in a directory, in the order of `readdir` -/
  readdir : Bytes → Except Bytes (List Bytes)
  /-- what `ParseFromFileDescriptor` makes of a file, if it can -/
  parse : Bytes → Except Bytes (Option RequestResponse)

def systemCall {α : Type} (attempt : Bytes) (x : Except Bytes α) : Except ReplayError α :=
  x.mapError (.unixError attempt)

def safeGetenv (key : EnvVar) (env : Environment) : Except ReplayError Bytes :=
  match getenv key env with
  | some value => .ok value
  | none => .error (.missingVariable key)

namespace Machine

def assertNotRoot (m : Machine) : Except ReplayError Unit :=
  if m.root then .error .privileges else .ok ()

/-- The entries of a directory that are files, by their names in it. -/
def filenames (dir : Bytes) (entries : List Bytes) : List Bytes :=
  (entries.filter fun name => name ≠ ascii "." ∧ name ≠ ascii "..").map (dir ++ ·)

def listDirectoryContents (m : Machine) (dir : Bytes) : Except ReplayError (List Bytes) := do
  m.assertNotRoot
  let entries ← systemCall (ascii "opendir (" ++ dir ++ ascii ")") (m.readdir dir)
  return filenames dir entries

/-- Opens a file and parses it. -/
def load (m : Machine) (filename : Bytes) : Except ReplayError RequestResponse := do
  match ← systemCall (ascii "open") (m.parse filename) with
  | some record => return record
  | none => throw (.invalidRecord filename)

end Machine

/-! ### `match_score` -/

def stripQuery (requestLine : Bytes) : Bytes :=
  match find (ascii "?") requestLine with
  | none => requestLine
  | some index => requestLine.take index

/-- The loop of `match_score`, from `i` on: `i` has 32 bits, and so has the score.  More than
`maxMatch` rounds are one for every `i` there is, so that it goes on for ever. -/
def matchLoop (requestLine firstLine : Bytes) (maxMatch : Nat) :
    Nat → Nat → Except ReplayError Nat
  | 0, _ => .error .endless
  | rounds + 1, i =>
      if i < maxMatch then
        if requestLine[i]? ≠ firstLine[i]? then .ok i
        else matchLoop requestLine firstLine maxMatch rounds (toU32 (i + 1))
      else .ok (toU32 maxMatch)

def matchScore (savedRecord : RequestResponse) (requestLine : Bytes) (isHttps : Bool)
    (env : Environment) : Except ReplayError Nat := do
  let savedRequest : HTTPRequest := .ofRecord savedRecord.request
  if isHttps ∧ savedRecord.scheme ≠ .https then return 0
  else if ¬ isHttps ∧ savedRecord.scheme ≠ .http then return 0
  else
    let host ← (headerMatch env .httpHost (ascii "Host") savedRequest).mapError .http
    if !host then return 0
    else
      let agent ← (headerMatch env .httpUserAgent (ascii "User-Agent") savedRequest).mapError .http
      if !agent then return 0
      else if stripQuery requestLine ≠ stripQuery savedRequest.firstLine then return 0
      else
        let maxMatch := min requestLine.length savedRequest.firstLine.length
        matchLoop requestLine savedRequest.firstLine maxMatch (maxMatch + 1) 0

/-! ### `main` -/

/-- What goes to the standard output, and whether the exit status is `EXIT_SUCCESS`. -/
structure Answer where
  output : Bytes
  success : Bool
  deriving DecidableEq, Repr

/-- A saved response. -/
def served (record : RequestResponse) : Answer where
  output := (HTTPMessage.ofRecord record.response : HTTPResponse).text
  success := true

def notFound (requestLine : Bytes) : Answer where
  output := ascii "HTTP/1.1 404 Not Found" ++ CRLF ++ ascii "Content-Type: text/plain" ++ CRLF ++
    CRLF ++ ascii "replayserver: could not find a match for " ++ requestLine ++ CRLF
  success := false

/-- One file: its record is the best so far, or not. -/
def consider (m : Machine) (env : Environment) (requestLine : Bytes) (isHttps : Bool)
    (filename : Bytes) (best : Nat × RequestResponse) :
    Except ReplayError (Nat × RequestResponse) := do
  let currentRecord ← m.load filename
  let score ← matchScore currentRecord requestLine isHttps env
  return if score > best.1 then (score, currentRecord) else best

def replayserver (m : Machine) (env : ProcessEnvironment) : Except ReplayError Answer := do
  m.assertNotRoot
  let workingDirectory ← safeGetenv .mahimahiChdir env.vars
  let recordingDirectory ← safeGetenv .mahimahiRecordPath env.vars
  let method ← safeGetenv .requestMethod env.vars
  let uri ← safeGetenv .requestUri env.vars
  let protocol ← safeGetenv .serverProtocol env.vars
  let requestLine := method ++ ascii " " ++ uri ++ ascii " " ++ protocol
  let isHttps := (getenv .https env.vars).isSome
  systemCall (ascii "chdir") (m.chdir workingDirectory)
  let files ← m.listDirectoryContents recordingDirectory
  let (bestScore, bestMatch) ← run (consider m env.vars requestLine isHttps) files (0, {})
  if bestScore > 0 then
    let output ← (HTTPMessage.str (.ofRecord bestMatch.response : HTTPResponse)).mapError .http
    return { output, success := true }
  else return notFound requestLine

/-! ### What matches -/

/-- The scheme is that of the request, `Host` and `User-Agent` are both absent or have the same
value, and the request lines are the same up to the first question mark. -/
structure Matches (env : Environment) (requestLine : Bytes) (saved : RequestResponse) : Prop where
  scheme : saved.scheme = if (getenv .https env).isSome then .https else .http
  host : headerValue (ascii "Host") saved.request.headers = getenv .httpHost env
  userAgent : headerValue (ascii "User-Agent") saved.request.headers = getenv .httpUserAgent env
  line : requestLine.takeWhile (· != 63) = saved.request.firstLine.takeWhile (· != 63)

theorem matches_iff {env : Environment} {requestLine : Bytes} {saved : RequestResponse} :
    Matches env requestLine saved ↔
      saved.scheme = (if (getenv .https env).isSome then .https else .http) ∧
        headerValue (ascii "Host") saved.request.headers = getenv .httpHost env ∧
        headerValue (ascii "User-Agent") saved.request.headers = getenv .httpUserAgent env ∧
        requestLine.takeWhile (· != 63) = saved.request.firstLine.takeWhile (· != 63) :=
  ⟨fun h => ⟨h.scheme, h.host, h.userAgent, h.line⟩, fun h => ⟨h.1, h.2.1, h.2.2.1, h.2.2.2⟩⟩

instance {env : Environment} {requestLine : Bytes} :
    DecidablePred (Matches env requestLine) := fun _ => decidable_of_iff _ matches_iff.symm

/-- `METHOD SP URI SP HTTP/d.d` -/
def IsRequestLine (line : Bytes) : Prop :=
  ∃ method uri major minor, 32 ∉ method ∧ 32 ∉ uri ∧ isDigit 10 major ∧ isDigit 10 minor ∧
    line = method ++ 32 :: (uri ++ 32 :: (ascii "HTTP/" ++ [major, 46, minor]))

theorem stripQuery_eq (line : Bytes) : stripQuery line = line.takeWhile (· != 63) := by
  have hmark : ascii "?" = [63] := by decide +kernel
  unfold stripQuery
  rw [hmark]
  induction line with
  | nil => rfl
  | cons b line ih =>
      rw [find, List.takeWhile_cons]
      by_cases hb : b = 63
      · simp [hb]
      · have hne : (b != 63) = true := by simpa using hb
        have hpre : ¬ [63].isPrefixOf (b :: line) = true := fun h =>
          hb (List.cons_prefix_cons.mp (List.isPrefixOf_iff_prefix.mp h)).1.symm
        rw [if_neg hpre, if_pos hne, ← ih]
        cases find [63] line <;> rfl

/-- **The loop**, where its index does not wrap. -/
theorem matchLoop_eq {requestLine firstLine : Bytes} {maxMatch : Nat}
    (hmax : maxMatch = min requestLine.length firstLine.length) (hlt : maxMatch < 2 ^ 32) :
    ∀ {rounds i : Nat}, i ≤ commonLength requestLine firstLine → maxMatch < i + rounds →
      matchLoop requestLine firstLine maxMatch rounds i =
        .ok (commonLength requestLine firstLine) := by
  have hle := commonLength_le requestLine firstLine
  rw [← hmax] at hle
  intro rounds
  induction rounds with
  | zero =>
      intro i hi hrounds
      omega
  | succ rounds ih =>
      intro i hi hrounds
      unfold matchLoop
      by_cases hin : i < maxMatch
      · have hiff := lt_commonLength_iff hi (hmax ▸ hin)
        rw [if_pos hin]
        by_cases hsame : requestLine[i]? = firstLine[i]?
        · have hnext : toU32 ((i : Int) + 1) = i + 1 := by
            rw [toU32_of_range (by omega) (by omega)]
            omega
          rw [if_neg (not_not.mpr hsame), hnext]
          exact ih (hiff.mpr hsame) (by omega)
        · have hhere : commonLength requestLine firstLine = i :=
            Nat.le_antisymm (Nat.le_of_not_lt fun h => hsame (hiff.mp h)) hi
          rw [if_pos hsame, hhere]
      · have hhere : commonLength requestLine firstLine = maxMatch := by omega
        rw [if_neg hin, hhere, toU32_of_range (by omega) (by omega), Int.toNat_natCast]

theorem otherScheme_iff {isHttps : Bool} {scheme : Scheme} :
    ¬ (isHttps ∧ scheme ≠ .https) ∧ ¬ (¬ isHttps ∧ scheme ≠ .http) ↔
      scheme = if isHttps then .https else .http := by
  cases isHttps <;> cases scheme <;> decide

/-- **The score**: what a matching record has in common with the request line. -/
theorem matchScore_eq {env : Environment} {requestLine : Bytes}
    (hlength : requestLine.length < 2 ^ 32) (saved : RequestResponse) :
    matchScore saved requestLine (getenv .https env).isSome env =
      .ok (nearness (Matches env requestLine) (·.request.firstLine) requestLine saved) := by
  have hloop : ∀ firstLine, matchLoop requestLine firstLine
      (min requestLine.length firstLine.length) (min requestLine.length firstLine.length + 1) 0 =
        .ok (commonLength requestLine firstLine) :=
    fun firstLine => matchLoop_eq rfl (by omega) (Nat.zero_le _) (by omega)
  unfold matchScore
  simp only [headerMatch_eq, stripQuery_eq, Except.mapError, ok_bind,
    HTTPMessage.ofRecord_firstLine, HTTPMessage.ofRecord_headers, hloop]
  -- what falls through the five comparisons is a match
  by_cases hmatch : Matches env requestLine saved
  · have hscheme := otherScheme_iff.mpr hmatch.scheme
    rw [nearness, if_pos hmatch, if_neg hscheme.1, if_neg hscheme.2,
      if_neg (by simpa using hmatch.host), if_neg (by simpa using hmatch.userAgent),
      if_neg (not_not.mpr hmatch.line)]
  · rw [nearness, if_neg hmatch]
    split
    · rfl
    next hs =>
      split
      · rfl
      next hs' =>
        split
        · rfl
        next hhost =>
          split
          · rfl
          next hagent =>
            split
            · rfl
            next hline =>
              exact absurd ⟨otherScheme_iff.mp ⟨hs, hs'⟩, by simpa using hhost,
                by simpa using hagent, not_not.mp hline⟩ hmatch

/-! ### The answer -/

/-- The program comes to its loop: the variables are set, the calls go through, and the files of the
recording directory hold these records, in the order of the directory. -/
structure Starts (m : Machine) (env : ProcessEnvironment) (method requestLine : Bytes)
    (records : List RequestResponse) : Prop where
  unprivileged : m.root = false
  directory : ∃ dir, getenv .mahimahiChdir env.vars = some dir ∧ m.chdir dir = .ok ()
  line : getenv .requestMethod env.vars = some method ∧
    ∃ uri protocol, getenv .requestUri env.vars = some uri ∧
      getenv .serverProtocol env.vars = some protocol ∧
      requestLine = method ++ ascii " " ++ uri ++ ascii " " ++ protocol
  recorded : ∃ dir entries, getenv .mahimahiRecordPath env.vars = some dir ∧
    m.readdir dir = .ok entries ∧ (Machine.filenames dir entries).mapM m.load = .ok records

theorem safeGetenv_eq {key : EnvVar} {env : Environment} {value : Bytes}
    (h : getenv key env = some value) : safeGetenv key env = .ok value := by
  rw [safeGetenv, h]

/-- What the loop leaves, when nothing fails. -/
def chosen (env : Environment) (requestLine : Bytes) (records : List RequestResponse) :
    Nat × RequestResponse :=
  records.foldl (keepBetter (nearness (Matches env requestLine) (·.request.firstLine) requestLine))
    (0, {})

section

variable {m : Machine} {env : ProcessEnvironment} {method requestLine : Bytes}
  {records : List RequestResponse}

/-- Three strings of an environment make a line that an `unsigned int` can count. -/
theorem Starts.length_lt (h : Starts m env method requestLine records) :
    requestLine.length < 2 ^ 32 := by
  obtain ⟨hmethod, uri, protocol, huri, hprotocol, rfl⟩ := h.line
  have h₁ := env.short _ _ hmethod
  have h₂ := env.short _ _ huri
  have h₃ := env.short _ _ hprotocol
  have hspace : (ascii " ").length = 1 := by decide +kernel
  simp only [List.length_append, hspace]
  unfold MAX_ARG_STRLEN at h₁ h₂ h₃
  omega

theorem run_consider (h : Starts m env method requestLine records) {files : List Bytes}
    (hfiles : files.mapM m.load = .ok records) :
    run (consider m env.vars requestLine (getenv .https env.vars).isSome) files (0, {}) =
      .ok (chosen env.vars requestLine records) := by
  refine (run_load hfiles _).trans (run_eq_foldl (fun saved _ best => ?_) _)
  rw [matchScore_eq h.length_lt]
  rfl

theorem Starts.replayserver_eq (h : Starts m env method requestLine records) :
    replayserver m env =
      .ok (if (chosen env.vars requestLine records).1 > 0 then
        served (chosen env.vars requestLine records).2 else notFound requestLine) := by
  obtain ⟨workingDir, hworking, hchdir⟩ := h.directory
  obtain ⟨recordingDir, entries, hrecording, hreaddir, hload⟩ := h.recorded
  obtain ⟨hmethod, uri, protocol, huri, hprotocol, hline⟩ := h.line
  have hroot : m.assertNotRoot = .ok () := by
    rw [Machine.assertNotRoot, h.unprivileged]
    rfl
  have hlist : m.listDirectoryContents recordingDir =
      .ok (Machine.filenames recordingDir entries) := by
    rw [Machine.listDirectoryContents, hroot, hreaddir]
    rfl
  unfold replayserver
  simp only [hroot, safeGetenv_eq hworking, safeGetenv_eq hrecording, safeGetenv_eq hmethod,
    safeGetenv_eq huri, safeGetenv_eq hprotocol, hchdir, systemCall, Except.mapError, hlist, ok_bind,
    ← hline, run_consider h hload, HTTPMessage.str_eq (HTTPMessage.ofRecord_state _)]
  split <;> rfl

/-- A line that begins with the method does not begin with a question mark. -/
theorem Starts.begins (h : Starts m env method requestLine records) (hmark : 63 ∉ method) :
    ∃ c rest, requestLine = c :: rest ∧ c ≠ 63 := by
  obtain ⟨-, uri, protocol, -, -, rfl⟩ := h.line
  have hspace : ascii " " = [32] := by decide +kernel
  rw [hspace]
  cases method with
  | nil => exact ⟨32, _, rfl, by decide⟩
  | cons c rest => exact ⟨c, _, rfl, fun hc => hmark (hc ▸ List.mem_cons_self)⟩

/-- So a score of 0 is no match. -/
theorem Matches.scores {env : Environment} {saved : RequestResponse} {c : UInt8} {rest : Bytes}
    (hc : c ≠ 63) (h : Matches env (c :: rest) saved) :
    0 < commonLength (c :: rest) saved.request.firstLine := by
  have hne : (c != 63) = true := by simpa using hc
  have hline := h.line
  rw [List.takeWhile_cons, if_pos hne] at hline
  have hpre : [c] <+: saved.request.firstLine := by
    refine List.IsPrefix.trans ?_ (List.takeWhile_prefix (· != 63))
    rw [← hline]
    exact List.prefix_append [c] _
  exact (prefix_iff (List.prefix_append [c] rest)).mp hpre

/-- Of two lines of the form, neither goes on where the other ends. -/
theorem IsRequestLine.eq_of_prefix {a b : Bytes} (ha : IsRequestLine a) (hb : IsRequestLine b)
    (hab : a <+: b) : a = b := by
  obtain ⟨method, uri, major, minor, hmethod, huri, -, -, rfl⟩ := ha
  obtain ⟨method', uri', major', minor', hmethod', huri', -, -, rfl⟩ := hb
  obtain ⟨rest, hrest⟩ := hab
  rw [List.append_assoc, List.cons_append, List.append_assoc, List.cons_append] at hrest
  obtain ⟨rfl, huris⟩ := (append_cons_inj hmethod hmethod').mp hrest
  obtain ⟨rfl, hversions⟩ := (append_cons_inj huri huri').mp huris
  have hnil : rest = [] := by
    have hlength := congrArg List.length hversions
    simp only [List.length_append, List.length_cons, List.length_nil] at hlength
    exact List.length_eq_zero_iff.mp (by omega)
  rw [hnil, List.append_nil] at hversions
  rw [hversions]

/-- **What is answered.** -/
theorem replayserver_answers (h : Starts m env method requestLine records) (hmark : 63 ∉ method) :
    (replayserver m env = .ok (notFound requestLine) ↔
      ∀ r ∈ records, ¬ Matches env.vars requestLine r) ∧
    ((∃ r ∈ records, Matches env.vars requestLine r) →
      ∃ r ∈ records, replayserver m env = .ok (served r) ∧ Matches env.vars requestLine r ∧
        (∀ other ∈ records, Matches env.vars requestLine other → ∀ p, p <+: requestLine →
          p <+: other.request.firstLine → p <+: r.request.firstLine) ∧
        (IsRequestLine requestLine →
          (∀ other ∈ records, Matches env.vars requestLine other →
            IsRequestLine other.request.firstLine) →
          (∃ other ∈ records, Matches env.vars requestLine other ∧
            other.request.firstLine = requestLine) →
          r.request.firstLine = requestLine)) := by
  obtain ⟨c, rest, rfl, hc⟩ := h.begins hmark
  obtain ⟨hnone, hfound⟩ := @nearest _ _ _ _ _ _ _ records {}
    fun _ (hmatch : Matches env.vars (c :: rest) _) => hmatch.scores hc
  rw [h.replayserver_eq]
  by_cases hscore : (chosen env.vars (c :: rest) records).1 > 0
  · rw [if_pos hscore]
    obtain ⟨hmem, hmatch, hlongest⟩ := hfound hscore
    have hsome : ¬ ∀ r ∈ records, ¬ Matches env.vars (c :: rest) r := fun hnot =>
      hnot _ hmem hmatch
    refine ⟨iff_of_false (fun heq => ?_) hsome, fun _ => ⟨_, hmem, rfl, hmatch, hlongest, ?_⟩⟩
    · -- the two differ in the exit status
      exact Bool.noConfusion (congrArg Answer.success (Except.ok.inj heq))
    · rintro hform hforms ⟨exact', hexact, hmatch', hsame⟩
      refine (hform.eq_of_prefix (hforms _ hmem hmatch) ?_).symm
      exact hlongest exact' hexact hmatch' _ (List.prefix_refl _) (hsame ▸ List.prefix_refl _)
  · have hno := hnone.mp (Nat.eq_zero_of_not_pos hscore)
    rw [if_neg hscore]
    exact ⟨iff_of_true rfl hno, fun ⟨r, hr, hmatch⟩ => absurd hmatch (hno r hr)⟩

end

/-! ### Two records of one page -/

def getPage (query : String) : RequestResponse where
  request :=
    { firstLine := ascii "GET /page?q=" ++ ascii query ++ ascii " HTTP/1.1"
      headers := [⟨ascii "host", ascii "example.com"⟩]
      body := [] }
  response := { firstLine := ascii "HTTP/1.1 200 OK", headers := [], body := ascii query }

/-- A directory with the two. -/
def twoPages : Machine where
  root := false
  chdir _ := .ok ()
  readdir _ := .ok [ascii ".", ascii "one", ascii "..", ascii "two"]
  parse filename := .ok (some (getPage (if filename = ascii "/rec/one" then "1" else "2")))

def secondPageVars : Environment
  | .mahimahiChdir => some (ascii "/")
  | .mahimahiRecordPath => some (ascii "/rec/")
  | .requestMethod => some (ascii "GET")
  | .requestUri => some (ascii "/page?q=2")
  | .serverProtocol => some (ascii "HTTP/1.1")
  | .httpHost => some (ascii "example.com")
  | .httpUserAgent => none
  | .https => none

theorem secondPageVars_short (v : EnvVar) (x : Bytes) (h : getenv v secondPageVars = some x) :
    x.length < MAX_ARG_STRLEN := by
  cases v <;> cases h <;> decide +kernel

/-- A request for the second. -/
def secondPage : ProcessEnvironment where
  vars := secondPageVars
  short := secondPageVars_short

theorem secondPage_starts : Starts twoPages secondPage (ascii "GET")
    (ascii "GET" ++ ascii " " ++ ascii "/page?q=2" ++ ascii " " ++ ascii "HTTP/1.1")
    [getPage "1", getPage "2"] where
  unprivileged := rfl
  directory := ⟨_, rfl, rfl⟩
  line := ⟨rfl, _, _, rfl, rfl, rfl⟩
  recorded := ⟨_, _, rfl, rfl, by decide +kernel⟩

/-- The recorded lines have the usual form. -/
theorem isRequestLine_getPage {query : String} {line : Bytes} (hquery : 32 ∉ ascii query)
    (hline : line = ascii "GET /page?q=" ++ ascii query ++ ascii " HTTP/1.1") :
    IsRequestLine line := by
  refine ⟨ascii "GET", ascii "/page?q=" ++ ascii query, 49, 49, by decide +kernel, ?_,
    by decide, by decide, ?_⟩
  · rw [List.mem_append, not_or]
    exact ⟨by decide +kernel, hquery⟩
  · have hget : ascii "GET /page?q=" = ascii "GET" ++ 32 :: ascii "/page?q=" := by decide +kernel
    have hhttp : ascii " HTTP/1.1" = 32 :: (ascii "HTTP/" ++ [49, 46, 49]) := by decide +kernel
    rw [hline, hget, hhttp]
    simp

theorem replayserver_answers_twoPages :
    replayserver twoPages secondPage = .ok (served (getPage "2")) := by
  have hform : ∀ other ∈ [getPage "1", getPage "2"], IsRequestLine other.request.firstLine := by
    intro other hother
    simp only [List.mem_cons, List.not_mem_nil, or_false] at hother
    rcases hother with rfl | rfl
    · exact isRequestLine_getPage (by decide +kernel) rfl
    · exact isRequestLine_getPage (by decide +kernel) rfl
  have hsecond : Matches secondPage.vars
      (ascii "GET" ++ ascii " " ++ ascii "/page?q=2" ++ ascii " " ++ ascii "HTTP/1.1")
      (getPage "2") := by decide +kernel
  have hline : (getPage "2").request.firstLine =
      ascii "GET" ++ ascii " " ++ ascii "/page?q=2" ++ ascii " " ++ ascii "HTTP/1.1" := by
    decide +kernel
  have hmem : getPage "2" ∈ [getPage "1", getPage "2"] := by simp
  obtain ⟨r, hr, hserved, -, -, hexact⟩ :=
    (replayserver_answers secondPage_starts (by decide +kernel)).2 ⟨_, hmem, hsecond⟩
  have hfirst := hexact (hline ▸ hform _ hmem) (fun other hother _ => hform other hother)
    ⟨_, hmem, hsecond, hline⟩
  simp only [List.mem_cons, List.not_mem_nil, or_false] at hr
  rcases hr with rfl | rfl
  · revert hfirst
    decide +kernel
  · exact hserved

end Mahimahi
