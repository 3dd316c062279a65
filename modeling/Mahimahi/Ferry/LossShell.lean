import Mahimahi.Ferry.Loop
import Mahimahi.Ferry.SwitchingLink

/-!
# Ferry — loss, on/off and meter shells

Three queues of packet shells keep a datagram or drop it when it comes, and let out all they have
when the sibling can be written.  `Passes` says so of a queue: `keeps` is its decision.

* `iidLoss_loop`: a loss shell writes, in order, the datagrams for which the draw was not a loss.
* `switchingLink_loop`: an on/off shell writes those that came in a round whose `wait_time` found the
  link on, as the schedule has it then.
* `meterQueue_loop`: a meter writes and counts everything.
* `Passes.loop_prompt`: whichever it is, a round in which the sibling can be written leaves nothing
  that was queued before.

`read_packet` looks at no clock, and the two calls that do not change the link look at nothing.
-/

open Fallible MachineInt Due

namespace Mahimahi

namespace LossShell

open Ferry FerryRound

/-- A queue that keeps or drops a datagram when it comes, and lets out all it has.  `link` is what
else there is, and `nothing` what is thrown for an empty packet. -/
structure Passes {ε κ Q S : Type} (T : FerryQueueType ε κ Q) (queue : Q → List Payload)
    (link : Q → S) (keeps : κ → S → Bool) (nothing : ε) : Prop where
  reads : ∀ k contents q, ∃ q', T.readPacket k contents q = .ok q' ∧ link q' = link q ∧
    queue q' = queue q ++ if keeps k (link q) then [contents] else []
  writes : ∀ k kernel q, Ensures (fun e => e = nothing ∧ [] ∈ queue q)
    (fun r => LossQueue.Taken (queue q) r.1 ∧ link r.2 = link q ∧ queue r.2 = [])
    (T.writePackets k kernel q)
  waits : ∀ {k q n q'}, T.waitTime k q = .ok (n, q') → queue q' = queue q ∧ (queue q ≠ [] → n = 0)
  pending : ∀ {k q}, T.pendingOutput k q = true ↔ queue q ≠ []

/-! ### The queues -/

/-- `IIDLoss`; in `read_packet` the generator draws. -/
def iidLoss : FerryQueueType QueueFault Bool LossQueue where
  readPacket drawn contents q := .ok (q.readPacket drawn contents)
  writePackets _ kernel q := do
    let pieces ← LossQueue.writePackets kernel 0 q.packetQueue
    return (pieces, { q with packetQueue := [] })
  waitTime _ q := .ok (q.waitTime, q)
  pendingOutput _ q := !q.packetQueue.isEmpty
  finished _ _ := false

/-- `SwitchingLink`; in `wait_time` the clock is read. -/
def switchingLink (onProcess offProcess : Nat → ℚ≥0) (fuel : Nat) :
    FerryQueueType SwitchFault Nat SwitchingLink where
  readPacket _ contents q := .ok (q.readPacket contents)
  writePackets _ kernel q := do
    let pieces ← (LossQueue.writePackets kernel 0 q.packetQueue).mapError .queue
    return (pieces, { q with packetQueue := [] })
  waitTime now q := q.waitTime onProcess offProcess fuel now
  pendingOutput _ q := !q.packetQueue.isEmpty
  finished _ _ := false

structure MeterQueue where
  packetQueue : List Payload := []
  /-- the values added to the graph, if there is one -/
  graph : Option (List Nat)
  deriving DecidableEq, Repr

def meterQueue : FerryQueueType QueueFault Unit MeterQueue where
  readPacket _ contents q := .ok
    { packetQueue := q.packetQueue ++ [contents]
      graph := q.graph.map fun values => values ++ [contents.length] }
  writePackets _ kernel q := do
    let pieces ← LossQueue.writePackets kernel 0 q.packetQueue
    return (pieces, { q with packetQueue := [] })
  waitTime _ q := .ok (if q.packetQueue = [] then 2 ^ 16 - 1 else 0, q)
  pendingOutput _ q := !q.packetQueue.isEmpty
  finished _ _ := false

theorem pending_queue {queue : List Payload} : (!queue.isEmpty) = true ↔ queue ≠ [] := by simp

theorem iidLoss_passes :
    Passes iidLoss LossQueue.packetQueue (fun _ => ()) (fun drawn _ => !drawn) .nothingToWrite where
  reads drawn contents q := by
    refine ⟨_, rfl, rfl, ?_⟩
    cases drawn <;> simp [LossQueue.readPacket]
  writes k kernel q := by
    exact (LossQueue.writePackets_ensures kernel 0 _).bind fun _ htaken => ⟨htaken, rfl, rfl⟩
  waits h := by
    cases h
    exact ⟨rfl, fun hne => if_neg hne⟩
  pending := pending_queue

theorem meterQueue_passes :
    Passes meterQueue MeterQueue.packetQueue (fun _ => ()) (fun _ _ => true) .nothingToWrite where
  reads k contents q := ⟨_, rfl, rfl, rfl⟩
  writes k kernel q := by
    exact (LossQueue.writePackets_ensures kernel 0 _).bind fun _ htaken => ⟨htaken, rfl, rfl⟩
  waits h := by
    cases h
    exact ⟨rfl, fun hne => if_neg hne⟩
  pending := pending_queue

theorem switchAll_queue {onProcess offProcess : Nat → ℚ≥0} {now fuel : Nat}
    {s s' : SwitchingLink} (h : s.switchAll onProcess offProcess now fuel = .ok s') :
    s'.packetQueue = s.packetQueue := by
  induction fuel generalizing s with
  | zero => cases h
  | succ fuel ih =>
      rw [SwitchingLink.switchAll] at h
      split at h
      · exact ih (s := s.switch onProcess offProcess) h
      · cases h
        rfl

theorem switchingLink_passes (onProcess offProcess : Nat → ℚ≥0) (fuel : Nat) :
    Passes (switchingLink onProcess offProcess fuel) (·.packetQueue)
      (fun q => { q with packetQueue := [] }) (fun _ q => q.linkIsOn) (.queue .nothingToWrite) where
  reads k contents q := by
    refine ⟨_, rfl, rfl, ?_⟩
    cases hon : q.linkIsOn <;>
      simp [SwitchingLink.readPacket, SwitchingLink.dropPacket, LossQueue.readPacket, hon]
  writes k kernel q := by
    refine Ensures.bind (Ensures.mapError ?_) fun _ htaken => ⟨htaken, rfl, rfl⟩
    exact (LossQueue.writePackets_ensures kernel 0 _).mono_error fun e he =>
      ⟨congrArg _ he.1, he.2⟩
  waits h := by
    have hqueue := switchAll_queue (SwitchingLink.of_waitTime_ok h)
    refine ⟨hqueue, fun hne => ?_⟩
    obtain ⟨t, ht, h⟩ := bind_ok.mp h
    have hzero : t.toLossQueue.waitTime = 0 := by
      rw [LossQueue.waitTime, switchAll_queue ht, if_neg hne]
    rw [if_pos hzero] at h
    cases h
    rfl
  pending := pending_queue

/-! ### A round -/

variable {ε κ Q S : Type} {T : FerryQueueType ε κ Q} {queue : Q → List Payload} {link : Q → S}
  {keeps : κ → S → Bool} {nothing : ε} {q q' : Q} {sent : List (κ × List Payload)}
  {turns : Nat → Poller.Turn (FerryAnswer κ)} {reads writes : List (FerryCall κ)}

/-- What has been written, and what is queued. -/
def contents (queue : Q → List Payload) (v : Q × List (κ × List Payload)) : List Payload :=
  v.2.map (·.2.flatten) ++ queue v.1

theorem run_reads (hT : Passes T queue link keeps nothing)
    (hreads : reads.Sublist (callOf turns 0)) (q : Q) (sent : List (κ × List Payload)) :
    ∃ q', run (FerryCall.step T) reads (q, sent) = .ok (q', sent) ∧ link q' = link q ∧ queue q' =
      queue q ++ ((reads.filterMap FerryCall.received?).filter (keeps ·.1 (link q))).map Prod.snd := by
  rcases reads_cases hreads with rfl | ⟨datagram, -, rfl⟩
  · exact ⟨q, rfl, rfl, by simp⟩
  · obtain ⟨q', hread, hlink, hqueue⟩ := hT.reads (turns 0).served.queue
      (FileDescriptor.read datagram FileDescriptor.BUFFER_SIZE) q
    refine ⟨q', by rw [run_singleton, FerryCall.step, hread]; rfl, hlink, ?_⟩
    rw [hqueue]
    cases hkeeps : keeps (turns 0).served.queue (link q) <;> simp [FerryCall.received?, hkeeps]

theorem run_writes (hT : Passes T queue link keeps nothing)
    (hwrites : writes.Sublist (callOf turns 1)) :
    Ensures (fun e => e = nothing ∧ [] ∈ queue q)
      (fun v => contents queue v = contents queue (q, sent) ∧ link v.1 = link q)
      (run (FerryCall.step T) writes (q, sent)) := by
  rcases writes_cases hwrites with rfl | ⟨kernel, -, rfl⟩
  · exact ⟨rfl, rfl⟩
  · rw [run_singleton]
    refine Ensures.map ((hT.writes (turns 1).served.queue kernel q).mono ?_)
    rintro ⟨pieces, q'⟩ ⟨htaken, hlink, hqueue⟩
    have hpieces : (pieces.map ((turns 1).served.queue, ·)).map (·.2.flatten) = queue q := by
      rw [List.map_map]
      exact htaken.flatten
    refine ⟨?_, hlink⟩
    rw [contents, contents, hqueue, List.map_append, hpieces, List.append_nil]

theorem received_writes (hwrites : writes.Sublist (callOf turns 1)) :
    writes.filterMap FerryCall.received? = [] := by
  rcases writes_cases hwrites with rfl | ⟨kernel, -, rfl⟩ <;> rfl

/-! ### The loop -/

/-- What is read from the TUN device, as far as it is read. -/
def arrivals (rounds : List (FerryRound κ)) : List (κ × Payload) :=
  (rounds.flatMap FerryRound.calls).filterMap FerryCall.received?

/-- How the loop can be stopped; `E` is what `wait_time` may throw. -/
def Excused (nothing : ε) (E : ε → Prop) (rounds : List (FerryRound κ)) :
    Poller.PollFault (FerryFault ε) → Prop
  | .callback (.queue e) => (e = nothing ∧ ∃ a ∈ arrivals rounds, a.2 = []) ∨ E e
  | .callback .systemCall | .callback .signal => True
  | .busyWait => 2 ^ 32 ≤ ((arrivals rounds).map Prod.snd).flatten.length

/-- `verdict` is what the link decides in every round; `I` holds of it between the rounds. -/
structure Judged (T : FerryQueueType ε κ Q) (link : Q → S) (keeps : κ → S → Bool) (E : ε → Prop)
    (rounds : List (FerryRound κ)) (verdict : κ → Bool) (I : List (FerryRound κ) → S → Prop) :
    Prop where
  exit : ∀ {done r s}, I done s → I (done ++ [r]) s
  waits : ∀ {done r q}, done ++ [r] <+: rounds → I done (link q) →
    Ensures E (fun w => I (done ++ [r]) (link w.2) ∧
      keeps (r.turns 0).served.queue (link w.2) = verdict (r.turns 0).served.queue)
      (T.waitTime r.waits q)

/-- What came was kept or dropped as `verdict` says, and what was kept is written or queued. -/
structure Kept (queue : Q → List Payload) (link : Q → S) (verdict : κ → Bool)
    (I : List (FerryRound κ) → S → Prop) (done : List (FerryRound κ)) (s : Ferry κ Q) : Prop where
  contents : contents queue s.view = (s.received.filter (verdict ·.1)).map Prod.snd
  received : s.received.Sublist (arrivals done)
  link : I done (link s.queue)

variable {E : ε → Prop} {rounds done : List (FerryRound κ)} {r : FerryRound κ} {verdict : κ → Bool}
  {I : List (FerryRound κ) → S → Prop} {s : Ferry κ Q}

theorem arrivals_snoc : arrivals (done ++ [r]) =
    arrivals done ++ (callOf r.turns 0).filterMap FerryCall.received? := by
  have hround : r.calls.filterMap FerryCall.received? =
      (callOf r.turns 0).filterMap FerryCall.received? := by
    rw [FerryRound.calls, range_calls]
    show (callOf r.turns 0 ++ callOf r.turns 1).filterMap FerryCall.received? = _
    rw [List.filterMap_append, received_writes (.refl _), List.append_nil]
  rw [arrivals, List.flatMap_append, List.flatMap_singleton, List.filterMap_append, hround]
  rfl

theorem arrivals_grow (hpre : done <+: rounds) : arrivals done <+: arrivals rounds := by
  obtain ⟨rest, rfl⟩ := hpre
  rw [arrivals, arrivals, List.flatMap_append, List.filterMap_append]
  exact List.prefix_append _ _

/-- What a round has read, after `wait_time`. -/
structure Read (queue : Q → List Payload) (verdict : κ → Bool) (done : List (FerryRound κ))
    (received : List (κ × Payload)) (v : Q × List (κ × List Payload)) : Prop where
  contents : contents queue v = (received.filter (verdict ·.1)).map Prod.snd
  received : received.Sublist (arrivals done)

theorem Read.queue_sublist {received : List (κ × Payload)} {v : Q × List (κ × List Payload)}
    (h : Read queue verdict done received v) :
    (queue v.1).Sublist ((arrivals done).map Prod.snd) := by
  have hall := List.sublist_append_right (v.2.map (·.2.flatten)) (queue v.1)
  rw [show _ ++ _ = _ from h.contents] at hall
  exact hall.trans ((List.filter_sublist.trans h.received).map Prod.snd)

/-- The first half of a round. -/
theorem Kept.read_round (hT : Passes T queue link keeps nothing)
    (h : Kept queue link verdict I done s)
    {n : Nat} (hwait : T.waitTime r.waits s.queue = .ok (n, q))
    (hverdict : keeps (r.turns 0).served.queue (link q) = verdict (r.turns 0).served.queue)
    (hreads : reads.Sublist (callOf r.turns 0)) :
    ∃ q', run (FerryCall.step T) reads (q, s.sent) = .ok (q', s.sent) ∧ link q' = link q ∧
      (queue s.queue) <+: queue q' ∧
      Read queue verdict (done ++ [r]) (s.received ++ reads.filterMap FerryCall.received?)
        (q', s.sent) := by
  obtain ⟨q', hrun, hlink, hqueue⟩ := run_reads hT hreads q s.sent
  rw [(hT.waits hwait).1] at hqueue
  refine ⟨q', hrun, hlink, ⟨_, hqueue.symm⟩, ?_, ?_⟩
  · have hsame : (reads.filterMap FerryCall.received?).filter (keeps ·.1 (link q)) =
        (reads.filterMap FerryCall.received?).filter (verdict ·.1) := by
      refine List.filter_congr fun e he => ?_
      rcases reads_cases hreads with rfl | ⟨datagram, -, rfl⟩
      · cases he
      · rw [List.mem_singleton.mp he]
        exact hverdict
    rw [LossShell.contents, hqueue, ← List.append_assoc, hsame, List.filter_append, List.map_append,
      ← h.contents]
    rfl
  · rw [arrivals_snoc]
    exact h.received.append (hreads.filterMap _)

/-- A round. -/
theorem Kept.round (hT : Passes T queue link keeps nothing) (h : Kept queue link verdict I done s)
    {n : Nat} (hwait : T.waitTime r.waits s.queue = .ok (n, q)) (hI : I (done ++ [r]) (link q))
    (hverdict : keeps (r.turns 0).served.queue (link q) = verdict (r.turns 0).served.queue)
    (hreads : reads.Sublist (callOf r.turns 0)) (hwrites : writes.Sublist (callOf r.turns 1))
    {s' : Ferry κ Q}
    (hrun : run (FerryCall.step T) (reads ++ writes) (q, s.sent) = .ok s'.view)
    (hreceived : s'.received =
      s.received ++ (reads ++ writes).filterMap FerryCall.received?) :
    Kept queue link verdict I (done ++ [r]) s' := by
  obtain ⟨q', hrun', hlink, -, hread⟩ := h.read_round hT hwait hverdict hreads
  rw [run_append, hrun', ok_bind] at hrun
  obtain ⟨hcontents, hlink'⟩ := (run_writes hT hwrites).of_ok hrun
  rw [List.filterMap_append, received_writes hwrites, List.append_nil] at hreceived
  refine ⟨?_, hreceived ▸ hread.received, ?_⟩
  · rw [hcontents, hreceived]
    exact hread.contents
  · rw [show link s'.queue = link q from hlink'.trans hlink]
    exact hI

/-- **What goes through such a shell.** -/
theorem passes_loop (hT : Passes T queue link keeps nothing)
    (hJ : Judged T link keeps E rounds verdict I) (hstart : I [] (link q)) (hempty : queue q = []) :
    Ensures (Excused nothing E rounds) (fun c => Kept queue link verdict I rounds c.2.state)
      (Ferry.loop T q rounds) := by
  refine Ferry.loop_ensures (P := Kept queue link verdict I) ⟨?_, .slnil, hstart⟩ ?_ ?_ ?_ ?_
  · rw [LossShell.contents]
    exact hempty
  · intro done r s h
    refine ⟨h.contents, h.received.trans ?_, hJ.exit h.link⟩
    rw [arrivals_snoc]
    exact List.sublist_append_left _ _
  · intro done r s e hpre h hwait
    exact .inr ((hJ.waits hpre h.link).of_error hwait)
  · intro done r s n q e hpre h hwait hthrows
    have hverdict := ((hJ.waits hpre h.link).of_ok hwait).2
    match e, hthrows with
    | .callback (.queue e), ⟨calls, hcalls, herror⟩ =>
        rw [range_calls] at hcalls
        obtain ⟨reads, writes, rfl, hreads, hwrites⟩ := List.sublist_append_iff.mp hcalls
        obtain ⟨q', hrun, -, -, hread⟩ := h.read_round hT hwait hverdict hreads
        rw [run_append, hrun, ok_bind] at herror
        obtain ⟨rfl, hmem⟩ := (run_writes hT hwrites).of_error herror
        obtain ⟨a, ha, hnil⟩ := List.mem_map.mp (hread.queue_sublist.subset hmem)
        exact .inl ⟨rfl, a, (arrivals_grow hpre).subset ha, hnil⟩
    | .callback .systemCall, _ | .callback .signal, _ => trivial
    | .busyWait, ⟨hpending, reads, hreads, q₁, sent, hrun, kernel, pieces, q₂, hwrite, hcount⟩ =>
        obtain ⟨q', hrun', -, hgrow, hread⟩ := h.read_round hT hwait hverdict hreads
        cases hrun.symm.trans hrun'
        obtain ⟨htaken, -⟩ := (hT.writes _ _ _).of_ok hwrite
        -- a packet that made `pending_output` true is written
        have hqueued : queue s.queue ≠ [] := (hT.waits hwait).1 ▸ hT.pending.mp hpending
        have hpos := List.length_pos_iff.mpr (hgrow.ne_nil hqueued)
        have hbytes := (hread.queue_sublist.trans
          ((arrivals_grow hpre).sublist.map Prod.snd)).flatten.length_le
        exact (Nat.le_of_dvd (hpos.trans_le htaken.calls) hcount).trans (htaken.bytes.trans hbytes)
  · intro done r s n q s' reads writes hpre h hwait hreads hwrites hrun hreceived
    obtain ⟨hI, hverdict⟩ := (hJ.waits hpre h.link).of_ok hwait
    exact h.round hT hwait hI hverdict hreads hwrites hrun hreceived

/-- **No datagram waits for a second round** in which the sibling can be written, and no poll blocks
while one waits. -/
theorem passes_prompt {c c' : FerrySession ε κ Q} {exit : Option Nat}
    (hT : Passes T queue link keeps nothing)
    (hbefore : Ferry.loop T q rounds = .ok (none, c))
    (hlast : Ferry.loop T q (rounds ++ [r]) = .ok (exit, c')) :
    ((r.turns 1).revents.pollOut = true → (∀ j ≤ 1, (r.turns j).revents.failed = false) →
      ∃ out, c'.state.sent = c.state.sent ++ out ∧
        queue c.state.queue <+: out.map (·.2.flatten)) ∧
    (queue c.state.queue ≠ [] → ∃ q', T.waitTime r.waits c.state.queue = .ok (0, q')) := by
  have hstep := loop_snoc hbefore hlast
  have hruns := (loop_runs q rounds).of_ok hbefore
  obtain ⟨-, c₁, hwait, hactions, served, exit', hserved, hcame, -, hall⟩ :=
    (roundStep_runs List.prefix_rfl hruns).of_ok hstep
  obtain ⟨⟨n, q₁⟩, htime, hc₁⟩ := bind_ok.mp hwait
  cases hc₁
  have htime := of_mapError_ok htime
  obtain ⟨hsame, hzero⟩ := hT.waits htime
  refine ⟨fun hready hfailed => ?_, fun hne => ⟨q₁, hzero hne ▸ htime⟩⟩
  by_cases hpending : T.pendingOutput (r.turns 1).asked.queue q₁ = true
  · have hone : 1 ∈ served := hcame.mem_done hserved hall
      ((one_served_iff hactions).mpr ⟨hpending, hready, hfailed⟩) (by simp)
    obtain ⟨reads, v', kernel, hreads, hrun, -, hwrite⟩ := came_writes hcame hserved hone
    obtain ⟨q', hrun', -, hqueue⟩ := run_reads hT hreads q₁ c.state.sent
    cases hrun.symm.trans hrun'
    obtain ⟨⟨pieces, q''⟩, hpieces, hview⟩ := of_map_ok hwrite
    have htaken := ((hT.writes _ _ _).of_ok hpieces).1
    refine ⟨pieces.map ((r.turns 1).served.queue, ·), (Prod.mk.inj hview).2.symm, ?_⟩
    rw [List.map_map]
    show _ <+: pieces.map List.flatten
    rw [htaken.flatten, hqueue, hsame]
    exact List.prefix_append _ _
  · have hempty : queue c.state.queue = [] := by
      rw [← hsame]
      exact not_not.mp fun hne => hpending (hT.pending.mpr hne)
    obtain ⟨out, hout⟩ := run_sent hcame.run
    exact ⟨out, hout.symm, hempty ▸ List.nil_prefix⟩

/-- A datagram is read. -/
def reading (k : κ) (datagram : Payload) : FerryRound κ :=
  let answer := { queue := k, datagram := some datagram, kernel := none, signal := none }
  { waits := k
    turns := fun i => { asked := answer, revents := { pollIn := i = 0 }, served := answer } }

/-- The sibling can be written. -/
def writing (k : κ) : FerryRound κ :=
  let answer := { queue := k, datagram := none, kernel := some fun _ => 0, signal := none }
  { waits := k
    turns := fun i => { asked := answer, revents := { pollOut := i = 1 }, served := answer } }

theorem passes_prompt_oneDatagram : ∃ c c',
    Ferry.loop iidLoss {} [reading false [1, 2]] = .ok (none, c) ∧
    Ferry.loop iidLoss {} [reading false [1, 2], writing true] = .ok (none, c') ∧
    c.state.queue.packetQueue = [[1, 2]] ∧ ∃ out, c'.state.sent = c.state.sent ++ out ∧
      c.state.queue.packetQueue <+: out.map (·.2.flatten) := by
  have hbefore : (Ferry.loop iidLoss {} [reading false [1, 2]]).map
      (fun r => (r.1, r.2.state.queue)) = .ok (none, { packetQueue := [[1, 2]] }) := by
    decide +kernel
  have hlast : (Ferry.loop iidLoss {} [reading false [1, 2], writing true]).map (fun r => r.1) =
      .ok none := by
    decide +kernel
  obtain ⟨⟨exit, c⟩, hc, hqueue⟩ := of_map_ok hbefore
  obtain ⟨rfl, hqueue⟩ := Prod.mk.inj hqueue
  obtain ⟨⟨exit', c'⟩, hc', rfl⟩ := of_map_ok hlast
  exact ⟨c, c', hc, hc', by rw [hqueue], (passes_prompt iidLoss_passes hc hc').1 rfl fun _ _ => rfl⟩

/-- **A loss shell.** -/
theorem iidLoss_loop (rounds : List (FerryRound Bool)) :
    Ensures (Excused .nothingToWrite (fun _ => False) rounds)
      (fun c => c.2.state.sent.map (·.2.flatten) ++ c.2.state.queue.packetQueue =
        (c.2.state.received.filter (!·.1)).map Prod.snd)
      (Ferry.loop iidLoss {} rounds) := by
  have hjudged : Judged iidLoss (fun _ => ()) (fun drawn _ => !drawn) (fun _ => False) rounds
      (fun drawn => !drawn) (fun _ _ => True) := ⟨fun h => h, fun _ _ => ⟨trivial, rfl⟩⟩
  exact (passes_loop iidLoss_passes hjudged trivial rfl).mono fun _ h => h.contents

theorem meterQueue_graph (graph : Option (List Nat)) (rounds : List (FerryRound Unit)) :
    Ensures (fun _ => True) (fun c => c.2.state.queue.graph =
        graph.map (· ++ c.2.state.received.map (·.2.length)))
      (Ferry.loop meterQueue { graph } rounds) := by
  refine Ferry.loop_ensures (P := fun _ (s : Ferry Unit MeterQueue) =>
    s.queue.graph = graph.map (· ++ s.received.map (·.2.length))) ?_ (fun h => h)
    (fun _ _ _ => trivial) (fun _ _ _ _ => trivial) ?_
  · simp
  · intro done r s n q s' reads writes _ h hwait hreads hwrites hrun hreceived
    cases hwait
    rw [run_append] at hrun
    obtain ⟨⟨q', sent⟩, hrun', hrun⟩ := bind_ok.mp hrun
    have hread : q'.graph = s.queue.graph.map
        (· ++ (reads.filterMap FerryCall.received?).map (·.2.length)) := by
      rcases reads_cases hreads with rfl | ⟨datagram, -, rfl⟩
      · cases hrun'
        simp
      · cases hrun'
        rfl
    have hwrite : s'.queue.graph = q'.graph := by
      rcases writes_cases hwrites with rfl | ⟨kernel, -, rfl⟩
      · obtain ⟨hqueue, -⟩ := Prod.mk.inj (Except.ok.inj hrun)
        rw [hqueue]
      · rw [run_singleton] at hrun
        obtain ⟨⟨pieces, q''⟩, hpieces, hview⟩ := of_map_ok hrun
        obtain ⟨_, -, hpieces⟩ := bind_ok.mp hpieces
        cases hpieces
        rw [← (Prod.mk.inj hview).1]
    rw [List.filterMap_append, received_writes hwrites, List.append_nil] at hreceived
    rw [hwrite, hread, h, hreceived, Option.map_map]
    simp [Function.comp_def]

/-- **A meter.** -/
theorem meterQueue_loop (graph : Option (List Nat)) (rounds : List (FerryRound Unit)) :
    Ensures (Excused .nothingToWrite (fun _ => False) rounds)
      (fun c => c.2.state.sent.map (·.2.flatten) ++ c.2.state.queue.packetQueue =
          c.2.state.received.map Prod.snd ∧
        c.2.state.queue.graph = graph.map (· ++ c.2.state.received.map (·.2.length)))
      (Ferry.loop meterQueue { graph } rounds) := by
  have hjudged : Judged meterQueue (fun _ => ()) (fun _ _ => true) (fun _ => False) rounds
      (fun _ => true) (fun _ _ => True) := ⟨fun h => h, fun _ _ => ⟨trivial, rfl⟩⟩
  have hpasses := passes_loop (q := { graph }) meterQueue_passes hjudged trivial rfl
  have hgraph := meterQueue_graph graph rounds
  cases hloop : Ferry.loop meterQueue { graph } rounds with
  | error e => exact hpasses.of_error hloop
  | ok c =>
      refine ⟨?_, hgraph.of_ok hloop⟩
      simpa [contents, view] using (hpasses.of_ok hloop).contents

/-! ### The on/off shell -/

section Switching

variable {onProcess offProcess : Nat → ℚ≥0} {start now fuel : Nat} {l : SwitchingLink}

/-- The link is on at `t`, by its schedule. -/
def OnAt (onProcess offProcess : Nat → ℚ≥0) (start t : Nat) : Prop :=
  ∃ n, DueBy (SwitchingLink.switchTime onProcess offProcess start) t n ∧ Odd n

/-- The clock does not go back.  A datagram carries the reading of the `wait_time` before it. -/
structure Lawful (rounds : List (FerryRound Nat)) : Prop where
  sorted : (rounds.map FerryRound.waits).Pairwise (· ≤ ·)
  small : ∀ r ∈ rounds, r.waits < 2 ^ 64 - 2 ^ 30
  label : ∀ r ∈ rounds, (r.turns 0).served.queue = r.waits

/-- The loop of `wait_time` runs out of fuel only where the schedule has as many switches. -/
theorem switchAll_ensures (fuel : Nat) (hs : SwitchingLink.OnSchedule onProcess offProcess start l)
    (hnow : now < 2 ^ 64 - 2 ^ 30)
    (hpast : ∀ k < l.draws, SwitchingLink.switchTime onProcess offProcess start k ≤ now) :
    Ensures (fun e => e = .outOfFuel ∧ ∀ k < l.draws + fuel,
        SwitchingLink.switchTime onProcess offProcess start k ≤ now)
      (fun _ => True) (l.switchAll onProcess offProcess now fuel) := by
  induction fuel generalizing l with
  | zero => exact ⟨rfl, hpast⟩
  | succ fuel ih =>
      by_cases hdue : l.nextSwitchTime ≤ now
      · rw [SwitchingLink.switchAll_due hdue, ← Nat.add_assoc, Nat.add_right_comm]
        exact ih (l := l.switch onProcess offProcess) (hs.switch hnow hdue) (hs.past hpast hdue)
      · rw [SwitchingLink.switchAll_late (Nat.not_le.mp hdue)]
        trivial

theorem onAt_iff {t n : Nat}
    (h : DueBy (SwitchingLink.switchTime onProcess offProcess start) t n) :
    OnAt onProcess offProcess start t ↔ Odd n := by
  refine ⟨fun hon => ?_, fun hodd => ⟨n, h, hodd⟩⟩
  obtain ⟨m, hm, hodd⟩ := hon
  rwa [le_antisymm (h.mono hm le_rfl) (hm.mono h le_rfl)]

/-- The switches that the link has made are over. -/
structure Past (onProcess offProcess : Nat → ℚ≥0) (start : Nat) (done : List (FerryRound Nat))
    (l : SwitchingLink) : Prop where
  schedule : SwitchingLink.OnSchedule onProcess offProcess start l
  past : ∀ k < l.draws, ∃ r ∈ done, SwitchingLink.switchTime onProcess offProcess start k ≤ r.waits

/-- `wait_time` runs out of fuel. -/
def Endless (onProcess offProcess : Nat → ℚ≥0) (start fuel : Nat) (rounds : List (FerryRound Nat))
    (e : SwitchFault) : Prop :=
  e = .outOfFuel ∧ ∃ r ∈ rounds, ∀ k < fuel,
    SwitchingLink.switchTime onProcess offProcess start k ≤ r.waits

variable {rounds : List (FerryRound Nat)}

theorem Lawful.le (h : Lawful rounds) {done : List (FerryRound Nat)} {r : FerryRound Nat}
    (hpre : done ++ [r] <+: rounds) : ∀ d ∈ done, d.waits ≤ r.waits := by
  have hsorted := h.sorted.sublist (hpre.sublist.map FerryRound.waits)
  rw [List.map_append] at hsorted
  intro d hd
  exact (List.pairwise_append.mp hsorted).2.2 _ (List.mem_map_of_mem hd) _ List.mem_cons_self

theorem switching_judged [DecidablePred (OnAt onProcess offProcess start)] (h : Lawful rounds) :
    Judged (switchingLink onProcess offProcess fuel)
      (fun q => { q with packetQueue := [] } : SwitchingLink → SwitchingLink)
      (fun _ q => q.linkIsOn) (Endless onProcess offProcess start fuel rounds) rounds
      (fun t => decide (OnAt onProcess offProcess start t)) (Past onProcess offProcess start) where
  exit h := by
    refine ⟨h.schedule, fun k hk => ?_⟩
    obtain ⟨r, hr, hle⟩ := h.past k hk
    exact ⟨r, List.mem_append_left _ hr, hle⟩
  waits := by
    intro done r q hpre hpast
    have hr : r ∈ rounds := hpre.subset (List.mem_append_right _ List.mem_cons_self)
    have hschedule : SwitchingLink.OnSchedule onProcess offProcess start q :=
      ⟨hpast.schedule.next, hpast.schedule.on⟩
    have hbefore : ∀ k < q.draws,
        SwitchingLink.switchTime onProcess offProcess start k ≤ r.waits := by
      intro k hk
      obtain ⟨d, hd, hle⟩ := hpast.past k hk
      exact hle.trans (h.le hpre d hd)
    have hswitch := switchAll_ensures fuel hschedule (h.small r hr) hbefore
    show Ensures _ _ (q.waitTime onProcess offProcess fuel r.waits)
    cases hwait : q.waitTime onProcess offProcess fuel r.waits with
    | error e =>
        rcases bind_error.mp hwait with herror | ⟨l, -, herror⟩
        · obtain ⟨rfl, hdue⟩ := hswitch.of_error herror
          exact ⟨rfl, r, hr, fun k hk => hdue k (by omega)⟩
        · split at herror <;> cases herror
    | ok w =>
        obtain ⟨wait, l⟩ := w
        obtain ⟨hschedule', hdue, -⟩ := SwitchingLink.switchAll_upto hschedule (h.small r hr)
          hbefore (SwitchingLink.of_waitTime_ok hwait)
        refine ⟨⟨⟨hschedule'.next, hschedule'.on⟩, fun k hk => ?_⟩, ?_⟩
        · exact ⟨r, List.mem_append_right _ List.mem_cons_self, (hdue k).mpr hk⟩
        · rw [h.label r hr, Bool.eq_iff_iff, decide_eq_true_iff, onAt_iff hdue]
          exact hschedule'.on

/-- **An on/off shell.** -/
theorem switchingLink_loop [DecidablePred (OnAt onProcess offProcess start)] (h : Lawful rounds) :
    Ensures (Excused (.queue .nothingToWrite) (Endless onProcess offProcess start fuel rounds) rounds)
      (fun c => c.2.state.sent.map (·.2.flatten) ++ c.2.state.queue.packetQueue =
        (c.2.state.received.filter fun e => OnAt onProcess offProcess start e.1).map Prod.snd)
      (Ferry.loop (switchingLink onProcess offProcess fuel) { nextSwitchTime := start } rounds) := by
  refine (passes_loop (switchingLink_passes onProcess offProcess fuel) (switching_judged h)
    ⟨?_, ?_⟩ rfl).mono fun _ h => h.contents
  · have hstart := SwitchingLink.onSchedule_start onProcess offProcess start
    exact ⟨hstart.next, hstart.on⟩
  · intro k hk
    exact absurd hk (Nat.not_lt_zero k)

/-- The link is on up to 10. -/
theorem switchingLink_loop_lateDatagram : ∃ c,
    Ferry.loop (switchingLink (fun _ => 10) (fun _ => 10) 5) { nextSwitchTime := 0 }
      [reading 0 [1], reading 12 [2], writing 12] = .ok (none, c) ∧
    c.state.sent.map (·.2.flatten) = [[1]] ∧ ∀ [DecidablePred (OnAt (fun _ => 10) (fun _ => 10) 0)],
      c.state.sent.map (·.2.flatten) ++ c.state.queue.packetQueue =
        (c.state.received.filter fun e => OnAt (fun _ => 10) (fun _ => 10) 0 e.1).map Prod.snd := by
  have hrun : (Ferry.loop (switchingLink (fun _ => 10) (fun _ => 10) 5) { nextSwitchTime := 0 }
      [reading 0 [1], reading 12 [2], writing 12]).map
        (fun c => (c.1, c.2.state.sent.map (·.2.flatten))) = .ok (none, [[1]]) := by
    decide +kernel
  have hlawful : Lawful [reading 0 [1], reading 12 [2], writing 12] := by
    refine ⟨?_, ?_, ?_⟩
    all_goals simp [reading, writing]
  obtain ⟨⟨exit, c⟩, hc, hsent⟩ := of_map_ok hrun
  obtain ⟨rfl, hsent⟩ := Prod.mk.inj hsent
  exact ⟨c, hc, hsent, (switchingLink_loop hlawful).of_ok hc⟩

end Switching

end LossShell

end Mahimahi
