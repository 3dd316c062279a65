import Mathlib.Logic.Function.Basic
import Mahimahi.Http.Message

/-!
# Replay — what a replayed request is compared with

Apache's `deepcgi_handler` hands a request to `replayserver` in environment variables.  The
environment belongs to the worker process, so what one call sets is there in the next.
`deepcgiHandler` goes up to the `popen`: its result is the environment that `replayserver` gets, or
nothing when the handler declines.

* `run_serve`: after a run, a variable holds the latest value that was written, or else what the
  worker started with.
* `same_as_first_iff`: `replayserver` sees the last request as if it were the first, except for a
  `User-Agent` or an `HTTPS` that this request does not set and an earlier one has.
* `headerMatch_same_iff`: the comparisons of `header_match` are those with the last request alone
  exactly when the variable is not such a leftover.
-/

open Fallible

namespace Mahimahi

open Search Ezio

/-- The variables that the two programs use. -/
inductive EnvVar where
  | mahimahiChdir
  | mahimahiRecordPath
  | requestMethod
  | requestUri
  | serverProtocol
  | httpHost
  | httpUserAgent
  | https
  deriving DecidableEq, Repr

abbrev Environment := EnvVar → Option Bytes

def getenv (name : EnvVar) (env : Environment) : Option Bytes := env name

/-- A null pointer where the C library wants a string. -/
inductive ReplayFault where
  | nullPointer
  deriving DecidableEq, Repr

/-- `setenv( name, value, TRUE )`; `none` is a null pointer. -/
def setenv (name : EnvVar) (value : Option Bytes) (env : Environment) :
    Except ReplayFault Environment :=
  match value with
  | some _ => .ok (Function.update env name value)
  | none => .error .nullPointer

def setenvIf (condition : Bool) (name : EnvVar) (value : Option Bytes) (env : Environment) :
    Except ReplayFault Environment :=
  if condition then setenv name value env else .ok env

/-- What `deepcgi_handler` reads of Apache's `request_rec`; a `const char *` may be null. -/
structure RequestRec where
  handler : Option Bytes
  method : Option Bytes
  unparsedUri : Option Bytes
  protocol : Option Bytes
  hostname : Option Bytes
  /-- what `apr_table_get` finds for `User-Agent` in `headers_in` -/
  userAgent : Option Bytes
  /-- what `ssl_is_https` says of the connection -/
  isHttps : Bool

/-- The handler is set, and it is this one. -/
def RequestRec.forDeepcgi (r : RequestRec) : Bool := r.handler == some (ascii "deepcgi-handler")

/-- What the worker process has from its start: the configuration, and whether `mod_ssl` offers
`ssl_is_https`. -/
structure Worker where
  workingDir : Option Bytes
  recordingDir : Option Bytes
  optfnIsHttps : Bool

namespace Worker

def deepcgiHandler (w : Worker) (r : RequestRec) (env : Environment) :
    Except ReplayFault (Option Environment) := do
  if !r.forDeepcgi then return none
  else
    let env ← setenv .mahimahiChdir w.workingDir env
    let env ← setenv .mahimahiRecordPath w.recordingDir env
    let env ← setenv .requestMethod r.method env
    let env ← setenv .requestUri r.unparsedUri env
    let env ← setenv .serverProtocol r.protocol env
    let env ← setenv .httpHost r.hostname env
    let env ← setenvIf r.userAgent.isSome .httpUserAgent r.userAgent env
    let env ← setenvIf (w.optfnIsHttps && r.isHttps) .https (some (ascii "1")) env
    return some env

/-- One call, as the process sees it: its environment stays. -/
def serve (w : Worker) (r : RequestRec) (env : Environment) : Except ReplayFault Environment := do
  let seen ← w.deepcgiHandler r env
  return seen.getD env

/-- What a call writes. -/
def written (w : Worker) (r : RequestRec) : EnvVar → Option Bytes
  | .mahimahiChdir => w.workingDir
  | .mahimahiRecordPath => w.recordingDir
  | .requestMethod => r.method
  | .requestUri => r.unparsedUri
  | .serverProtocol => r.protocol
  | .httpHost => r.hostname
  | .httpUserAgent => r.userAgent
  | .https => if w.optfnIsHttps && r.isHttps then some (ascii "1") else none

end Worker

/-- The variables that describe the request. -/
def EnvVar.ofRequest : EnvVar → Bool
  | .mahimahiChdir | .mahimahiRecordPath => false
  | _ => true

/-- The variables that a call sets only for some requests. -/
def EnvVar.conditional : EnvVar → Bool
  | .httpUserAgent | .https => true
  | _ => false

theorem setenv_ok {name : EnvVar} {value : Option Bytes} {env env' : Environment} :
    setenv name value env = .ok env' ↔ value.isSome ∧ env' = Function.update env name value := by
  cases value with
  | none => simp [setenv]
  | some x => simp [setenv, eq_comm]

theorem setenvIf_ok {condition : Bool} {name : EnvVar} {value : Option Bytes}
    {env env' : Environment} (hvalue : condition = true → value.isSome) :
    setenvIf condition name value env = .ok env' ↔
      env' = if condition then Function.update env name value else env := by
  cases condition with
  | false => simp [setenvIf, eq_comm]
  | true => simp [setenvIf, setenv_ok, hvalue]

namespace Worker

variable {w : Worker}

/-- The environment after the eight writes, variable by variable. -/
theorem written_updates {r : RequestRec} (env : Environment)
    (hall : ∀ v, v.conditional = false → (w.written r v).isSome) :
    (let env₆ := Function.update (Function.update (Function.update (Function.update
        (Function.update (Function.update env .mahimahiChdir w.workingDir)
          .mahimahiRecordPath w.recordingDir) .requestMethod r.method)
          .requestUri r.unparsedUri) .serverProtocol r.protocol) .httpHost r.hostname
      let env₇ := if r.userAgent.isSome then Function.update env₆ .httpUserAgent r.userAgent else env₆
      if w.optfnIsHttps && r.isHttps then Function.update env₇ .https (some (ascii "1")) else env₇) =
        fun v => (w.written r v).or (env v) := by
  have hor : ∀ v, v.conditional = false → (w.written r v).or (env v) = w.written r v :=
    fun v hv => Option.or_of_isSome (hall v hv)
  funext v
  cases v with
  | httpUserAgent =>
      cases hua : r.userAgent <;> by_cases hs : w.optfnIsHttps && r.isHttps <;>
        simp [written, hua, hs]
  | https =>
      by_cases hs : w.optfnIsHttps && r.isHttps <;> simp [written, hs]
      cases r.userAgent <;> simp
  | _ =>
      rw [hor _ rfl]
      cases r.userAgent <;> by_cases hs : w.optfnIsHttps && r.isHttps <;> simp [written, hs]

/-- **What a call does**: it goes through when every string it always writes is there, and it
leaves the other variables as they were. -/
theorem deepcgiHandler_some {r : RequestRec} {env env' : Environment} :
    w.deepcgiHandler r env = .ok (some env') ↔
      r.forDeepcgi = true ∧ (∀ v, v.conditional = false → (w.written r v).isSome) ∧
        env' = fun v => (w.written r v).or (env v) := by
  have hua : r.userAgent.isSome = true → r.userAgent.isSome := id
  have hs : (w.optfnIsHttps && r.isHttps) = true → (some (ascii "1")).isSome := fun _ => rfl
  unfold deepcgiHandler
  cases hfor : r.forDeepcgi with
  | false => simp [pure, Except.pure]
  | true =>
      simp only [Bool.not_true, Bool.false_eq_true, if_false, bind_ok, setenv_ok, setenvIf_ok hua,
        setenvIf_ok hs, true_and]
      constructor
      · rintro ⟨_, ⟨hdir, rfl⟩, _, ⟨hrec, rfl⟩, _, ⟨hmethod, rfl⟩, _, ⟨huri, rfl⟩, _, ⟨hproto, rfl⟩,
          _, ⟨hhost, rfl⟩, _, rfl, _, rfl, h⟩
        have hall : ∀ v, v.conditional = false → (w.written r v).isSome := by
          intro v hv
          cases v <;> first | assumption | cases hv
        rw [← written_updates env hall]
        cases h
        exact ⟨hall, rfl⟩
      · rintro ⟨hall, rfl⟩
        rw [← written_updates env hall]
        exact ⟨_, ⟨hall .mahimahiChdir rfl, rfl⟩, _, ⟨hall .mahimahiRecordPath rfl, rfl⟩,
          _, ⟨hall .requestMethod rfl, rfl⟩, _, ⟨hall .requestUri rfl, rfl⟩,
          _, ⟨hall .serverProtocol rfl, rfl⟩, _, ⟨hall .httpHost rfl, rfl⟩, _, rfl, _, rfl, rfl⟩

theorem deepcgiHandler_none {r : RequestRec} {env : Environment} :
    w.deepcgiHandler r env = .ok none ↔ r.forDeepcgi = false := by
  cases hfor : r.forDeepcgi with
  | false => simp [deepcgiHandler, hfor, pure, Except.pure]
  | true =>
      simp only [deepcgiHandler, hfor, Bool.not_true, Bool.false_eq_true, if_false, bind_ok]
      exact iff_of_false (by rintro ⟨_, -, _, -, _, -, _, -, _, -, _, -, _, -, _, -, h⟩; cases h)
        (by decide)

/-! ### Runs -/

/-- The latest value that the requests write to a variable. -/
def latest (w : Worker) (rs : List RequestRec) (v : EnvVar) : Option Bytes :=
  ((rs.filter (·.forDeepcgi)).filterMap (w.written · v)).getLast?

theorem latest_concat (rs : List RequestRec) (r : RequestRec) (v : EnvVar) :
    w.latest (rs ++ [r]) v =
      if r.forDeepcgi then (w.written r v).or (w.latest rs v) else w.latest rs v := by
  cases hfor : r.forDeepcgi with
  | false => simp [latest, hfor]
  | true => cases hv : w.written r v <;> simp [latest, hfor, hv]

/-- **What a run leaves behind.** -/
theorem run_serve {rs : List RequestRec} {env₀ env : Environment}
    (h : run w.serve rs env₀ = .ok env) : env = fun v => (w.latest rs v).or (env₀ v) := by
  refine run_induction (P := fun rs env => env = fun v => (w.latest rs v).or (env₀ v)) ?_ ?_ h
  · rfl
  · rintro done _ r env' - rfl hstep
    obtain ⟨seen, hseen, h⟩ := bind_ok.mp hstep
    cases h
    funext v
    rw [latest_concat]
    cases seen with
    | none => rw [deepcgiHandler_none.mp hseen]; rfl
    | some env' =>
        obtain ⟨hfor, -, rfl⟩ := deepcgiHandler_some.mp hseen
        rw [hfor, if_pos rfl, Option.or_assoc]
        rfl

/-- The last request does not set the variable, and an earlier one has left a value there that the
worker did not start with. -/
def Leftover (w : Worker) (env₀ : Environment) (earlier : List RequestRec) (last : RequestRec)
    (v : EnvVar) : Prop :=
  w.written last v = none ∧ ∃ x, w.latest earlier v = some x ∧ env₀ v ≠ some x

theorem same_iff_not_leftover {env₀ : Environment} {earlier : List RequestRec} {last : RequestRec}
    {v : EnvVar} :
    (w.written last v).or ((w.latest earlier v).or (env₀ v)) = (w.written last v).or (env₀ v) ↔
      ¬ w.Leftover env₀ earlier last v := by
  unfold Leftover
  cases w.written last v with
  | some x => simp
  | none => cases w.latest earlier v <;> simp [eq_comm]

/-- **When a replayed request is seen as if it were the first.** -/
theorem same_as_first_iff {env₀ env seen : Environment} {earlier : List RequestRec}
    {last : RequestRec} (hearlier : run w.serve earlier env₀ = .ok env)
    (hlast : w.deepcgiHandler last env = .ok (some seen)) :
    ∃ first, w.deepcgiHandler last env₀ = .ok (some first) ∧
      ((∀ v, v.ofRequest → getenv v seen = getenv v first) ↔
        ¬ w.Leftover env₀ earlier last .httpUserAgent ∧
        ¬ w.Leftover env₀ earlier last .https) := by
  obtain ⟨hfor, hall, rfl⟩ := deepcgiHandler_some.mp hlast
  obtain rfl := run_serve hearlier
  refine ⟨_, deepcgiHandler_some.mpr ⟨hfor, hall, rfl⟩, ?_⟩
  simp only [getenv, same_iff_not_leftover]
  constructor
  · exact fun h => ⟨h .httpUserAgent rfl, h .https rfl⟩
  · rintro ⟨hua, hs⟩ v hv
    cases v with
    | httpUserAgent => exact hua
    | https => exact hs
    -- the other variables are written by every request
    | _ => exact fun h => Option.isSome_iff_ne_none.mp (hall _ (by rfl)) h.1

end Worker

/-! ### `header_match` -/

def headerMatch (env : Environment) (envVarName : EnvVar) (headerName : Bytes)
    (savedRequest : HTTPRequest) : Except HTTPError Bool :=
  match getenv envVarName env with
  | none => return !savedRequest.hasHeader headerName
  | some envValue =>
      if savedRequest.hasHeader headerName then do
        return (← savedRequest.getHeaderValue headerName) == envValue
      else return false

/-- `header_match` asks whether the variable and the saved header agree, absence included. -/
theorem headerMatch_eq {env : Environment} {v : EnvVar} {name : Bytes} {saved : HTTPRequest} :
    headerMatch env v name saved = .ok (headerValue name saved.headers == getenv v env) := by
  unfold headerMatch
  rw [HTTPMessage.hasHeader_eq]
  cases hvalue : headerValue name saved.headers with
  | none => cases getenv v env <;> rfl
  | some x =>
      rw [HTTPMessage.getHeaderValue_eq hvalue]
      cases getenv v env <;> rfl

/-- A saved request with the one header, or with none. -/
def savedWith (name : Bytes) (value : Option Bytes) : HTTPRequest :=
  { members := {}, headers := (value.map (HTTPHeader.mk name)).toList }

theorem headerValue_savedWith (name : Bytes) (value : Option Bytes) :
    headerValue name (savedWith name value).headers = value := by
  cases value with
  | none => rfl
  | some x =>
      have hself : equivalentStrings name name = true := by
        simp [equivalentStrings, List.zip_eq_zipWith, List.zipWith_self]
      simp [savedWith, headerValue, hself]

/-- **When `header_match` compares with the last request alone.** -/
theorem headerMatch_same_iff {w : Worker} {env₀ env seen first : Environment}
    {earlier : List RequestRec} {last : RequestRec} (hearlier : run w.serve earlier env₀ = .ok env)
    (hlast : w.deepcgiHandler last env = .ok (some seen))
    (hfirst : w.deepcgiHandler last env₀ = .ok (some first)) (v : EnvVar) (name : Bytes) :
    (∀ saved, headerMatch seen v name saved = headerMatch first v name saved) ↔
      ¬ w.Leftover env₀ earlier last v := by
  have hseen : getenv v seen = (w.written last v).or ((w.latest earlier v).or (env₀ v)) := by
    obtain ⟨-, -, rfl⟩ := Worker.deepcgiHandler_some.mp hlast
    obtain rfl := Worker.run_serve hearlier
    rfl
  have hfirst : getenv v first = (w.written last v).or (env₀ v) := by
    obtain ⟨-, -, rfl⟩ := Worker.deepcgiHandler_some.mp hfirst
    rfl
  rw [← Worker.same_iff_not_leftover, ← hseen, ← hfirst]
  constructor
  · intro hall
    -- the saved request whose header is what the first request would have had there
    have h := hall (savedWith name (getenv v first))
    rw [headerMatch_eq, headerMatch_eq, headerValue_savedWith, beq_self_eq_true] at h
    exact (eq_of_beq (Except.ok.inj h)).symm
  · intro h saved
    rw [headerMatch_eq, headerMatch_eq, h]

/-! ### A leftover -/

def plainWorker : Worker := ⟨some (ascii "/"), some (ascii "/rec"), false⟩

/-- A request for `/` with this `User-Agent`, if any. -/
def requestWith (userAgent : Option Bytes) : RequestRec where
  handler := some (ascii "deepcgi-handler")
  method := some (ascii "GET")
  unparsedUri := some (ascii "/")
  protocol := some (ascii "HTTP/1.1")
  hostname := some (ascii "example.com")
  userAgent := userAgent
  isHttps := false

theorem deepcgiHandler_requestWith (userAgent : Option Bytes) (env : Environment) :
    plainWorker.deepcgiHandler (requestWith userAgent) env =
      .ok (some fun v => (plainWorker.written (requestWith userAgent) v).or (env v)) := by
  refine Worker.deepcgiHandler_some.mpr
    ⟨by simp [RequestRec.forDeepcgi, requestWith], ?_, rfl⟩
  intro v hv
  cases v <;> first | rfl | cases hv

theorem serve_requestWith (userAgent : Option Bytes) (env : Environment) :
    run plainWorker.serve [requestWith userAgent] env =
      .ok fun v => (plainWorker.written (requestWith userAgent) v).or (env v) := by
  rw [run_cons, Worker.serve, deepcgiHandler_requestWith]
  rfl

def browser : RequestRec := requestWith (some (ascii "x"))

/-- The same request twice. -/
theorem same_as_first_iff_twice : ∃ first,
    plainWorker.deepcgiHandler browser (fun _ => none) = .ok (some first) ∧
      ∀ v, v.ofRequest → getenv v (fun v => (plainWorker.written browser v).or
        ((plainWorker.written browser v).or none)) = getenv v first := by
  obtain ⟨first, hfirst, hiff⟩ := Worker.same_as_first_iff
    (serve_requestWith (some (ascii "x")) fun _ => none)
    (deepcgiHandler_requestWith (some (ascii "x")) _)
  refine ⟨first, hfirst, hiff.mpr ⟨?_, ?_⟩⟩
  · rintro ⟨hnone, -⟩
    have hua : plainWorker.written browser .httpUserAgent = some (ascii "x") := by decide +kernel
    exact absurd (hua.symm.trans hnone) (by simp)
  · rintro ⟨-, x, hlatest, -⟩
    have hs : plainWorker.latest [browser] .https = none := by decide +kernel
    exact absurd (hs.symm.trans hlatest) (by simp)

/-- A browser's request, and then one without a `User-Agent`. -/
theorem user_agent_left_over : ¬ ∀ (w : Worker) (earlier : List RequestRec) (last : RequestRec)
    (env₀ env seen first : Environment), run w.serve earlier env₀ = .ok env →
    w.deepcgiHandler last env = .ok (some seen) →
    w.deepcgiHandler last env₀ = .ok (some first) →
    ∀ v, v.ofRequest → getenv v seen = getenv v first := by
  intro hall
  have hsame := hall plainWorker _ _ (fun _ => none) _ _ _
    (serve_requestWith (some (ascii "x")) _)
    (deepcgiHandler_requestWith none _) (deepcgiHandler_requestWith none _) .httpUserAgent rfl
  revert hsame
  decide +kernel

end Mahimahi
