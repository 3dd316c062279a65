import Mahimahi.Packet.Disciplines

/-!
# Queues — nothing is duplicated, reordered or miscounted

* `queue_conserves`: over every run of calls, of any discipline, `size_packets()` and `size_bytes()`
  are the totals of `internal_queue_`, and the packets returned so far followed by those still
  queued are, in order, some of the packets accepted.

A `Trace` is not in the source: it remembers the packets that a run has accepted and returned.
-/

open Fallible

namespace Mahimahi

namespace Discipline

structure Trace where
  accepted : List QueuedPacket := []
  returned : List QueuedPacket := []

inductive Call where
  | enqueue (ts arrivalTime : Nat) (contents : Payload)
  | dequeue (clock : Nat → Nat)
  | setBandwidth (bandwidth : Nat)

def Call.step : Call → Trace × Discipline → Except Fault (Trace × Discipline)
  | .enqueue ts arrivalTime contents, (t, q) => do
      let p : QueuedPacket := { arrivalTime, contents }
      let q' ← q.enqueue ts p
      return (if q.accepts ts p then { t with accepted := t.accepted ++ [p] } else t, q')
  | .dequeue clock, (t, q) => do
      let (p, q') ← q.dequeue clock
      return ({ t with returned := t.returned ++ [p] }, q')
  | .setBandwidth bandwidth, (t, q) => return (t, q.setBandwidth bandwidth)

/-- The counters are exact, and what was returned and what is queued was accepted in that order. -/
structure Conserved (t : Trace) (q : Discipline) : Prop where
  counted : q.counted.Counted
  order : (t.returned.map QueuedPacket.entry ++ q.counted.entries).Sublist
    (t.accepted.map QueuedPacket.entry)

theorem Conserved.step {c : Call} {t t' : Trace} {q q' : Discipline}
    (h : Conserved t q) (hc : c.step (t, q) = .ok (t', q')) : Conserved t' q' := by
  cases c with
  | enqueue ts arrivalTime contents =>
      obtain ⟨q₁, hq₁, hret⟩ := bind_ok.mp hc
      have ho := enqueue_offered hq₁
      cases hret
      refine ⟨ho.counted h.counted, ((ho.entries.append_left _).trans ?_)⟩
      rw [← List.append_assoc]
      split
      · rw [List.map_append]
        exact h.order.append_right _
      · rw [List.append_nil]
        exact h.order
  | dequeue clock =>
      obtain ⟨⟨p, q₁⟩, hq₁, hret⟩ := bind_ok.mp hc
      have hy := dequeue_yields hq₁
      cases hret
      refine ⟨hy.counted h.counted, ?_⟩
      rw [List.map_append, List.append_assoc]
      exact (hy.entries.append_left _).trans h.order
  | setBandwidth bandwidth =>
      cases hc
      have hq : (q.setBandwidth bandwidth).counted = q.counted := fifo.setBandwidth_eq bandwidth q
      exact ⟨hq ▸ h.counted, hq ▸ h.order⟩

theorem run_conserved {a : QueueArgs} {calls : List Call} {t : Trace} {q : Discipline}
    (h : run Call.step calls ({}, a.make) = .ok (t, q)) : Conserved t q := by
  refine run_induction (P := fun _ x => Conserved x.1 x.2) ?_ ?_ h
  · exact ⟨counted_make a ▸ CountedQueue.counted_nil, by rw [counted_make]; exact .refl _⟩
  · rintro - ⟨t, q⟩ c ⟨t', q'⟩ - hP hs
    exact hP.step hs

/-- Every accepted packet was enqueued. -/
theorem accepted_offered {a : QueueArgs} {calls : List Call} {t : Trace} {q : Discipline}
    (h : run Call.step calls ({}, a.make) = .ok (t, q)) :
    ∀ p ∈ t.accepted, ∃ ts, .enqueue ts p.arrivalTime p.contents ∈ calls := by
  refine run_induction (P := fun done x => ∀ p ∈ x.1.accepted,
    ∃ ts, .enqueue ts p.arrivalTime p.contents ∈ done) (by simp) ?_ h
  rintro done ⟨t, q⟩ c ⟨t', q'⟩ - hP hs p hp
  have hold : p ∈ t.accepted → ∃ ts, Call.enqueue ts p.arrivalTime p.contents ∈ done ++ [c] :=
    fun hmem => by
      obtain ⟨ts, hts⟩ := hP p hmem
      exact ⟨ts, List.mem_append_left _ hts⟩
  cases c with
  | enqueue ts arrivalTime contents =>
      obtain ⟨q₁, -, hret⟩ := bind_ok.mp hs
      cases hret
      dsimp only at hp
      split at hp
      · rcases List.mem_append.mp hp with hp | hp
        · exact hold hp
        · rw [List.mem_singleton.mp hp]
          exact ⟨ts, by simp⟩
      · exact hold hp
  | dequeue clock =>
      obtain ⟨⟨p₁, q₁⟩, -, hret⟩ := bind_ok.mp hs
      cases hret
      exact hold hp
  | setBandwidth bandwidth =>
      cases hs
      exact hold hp

/-- Every queued packet was enqueued. -/
theorem queued_offered {a : QueueArgs} {calls : List Call} {t : Trace} {q : Discipline}
    (h : run Call.step calls ({}, a.make) = .ok (t, q)) :
    ∀ p ∈ q.internalQueue, ∃ ts, .enqueue ts p.arrivalTime p.contents ∈ calls := by
  intro p hp
  have hmem : p.entry ∈ t.accepted.map QueuedPacket.entry :=
    (run_conserved h).order.subset (List.mem_append_right _ (List.mem_map_of_mem hp))
  obtain ⟨p', hp', hentry⟩ := List.mem_map.mp hmem
  obtain ⟨ts, hts⟩ := accepted_offered h p' hp'
  have harrival : p'.arrivalTime = p.arrivalTime := congrArg Prod.fst hentry
  have hcontents : p'.contents = p.contents := congrArg Prod.snd hentry
  exact ⟨ts, harrival ▸ hcontents ▸ hts⟩

/-- **Conservation.**  Every discipline counts what it holds, and returns the packets it accepted in
the order of their arrival, each at most once and with its contents and arrival time. -/
theorem queue_conserves {a : QueueArgs} {calls : List Call} {t : Trace} {q : Discipline}
    (hsize : ∀ ts arrivalTime contents, .enqueue ts arrivalTime contents ∈ calls →
      44 ≤ contents.length)
    (hrun : run Call.step calls ({}, a.make) = .ok (t, q))
    (hbytes : totalBytes q.internalQueue < 2 ^ 31) :
    AbstractPacketQueue.sizePackets q = .ok q.internalQueue.length ∧
    AbstractPacketQueue.sizeBytes q = .ok (totalBytes q.internalQueue) ∧
    (q.internalQueue.map QueuedPacket.entry).Sublist (t.accepted.map QueuedPacket.entry) ∧
    (t.returned.map QueuedPacket.entry ++ q.internalQueue.map QueuedPacket.entry).Sublist
      (t.accepted.map QueuedPacket.entry) := by
  have h := run_conserved hrun
  have hlen : q.internalQueue.length ≤ totalBytes q.internalQueue := by
    refine length_le_totalBytes fun p hp => ?_
    obtain ⟨ts, hts⟩ := queued_offered hrun p hp
    exact Nat.le_trans (by decide) (hsize ts _ _ hts)
  exact ⟨h.counted.sizePackets_eq (Nat.lt_of_le_of_lt hlen hbytes), h.counted.sizeBytes_eq hbytes,
    (List.sublist_append_right _ _).trans h.order, h.order⟩

/-- One packet at most, dropped from the head. -/
def onePacket : QueueArgs := .dropHead ⟨1, 0, false, 0, by decide⟩

/-- The second packet pushes the first one out. -/
def threePackets : List Call :=
  [.enqueue 0 0 (List.replicate 44 1), .enqueue 0 0 (List.replicate 44 2), .dequeue fun _ => 1,
    .enqueue 2 2 (List.replicate 44 3)]

theorem queue_conserves_threePackets : ∃ t q,
    run Call.step threePackets ({}, onePacket.make) = .ok (t, q) ∧
    AbstractPacketQueue.sizePackets q = .ok q.internalQueue.length ∧
    AbstractPacketQueue.sizeBytes q = .ok (totalBytes q.internalQueue) ∧
    (q.internalQueue.map QueuedPacket.entry).Sublist (t.accepted.map QueuedPacket.entry) ∧
    (t.returned.map QueuedPacket.entry ++ q.internalQueue.map QueuedPacket.entry).Sublist
      (t.accepted.map QueuedPacket.entry) := by
  obtain ⟨⟨t, q⟩, hrun, hq⟩ := of_map_ok (x := run Call.step threePackets ({}, onePacket.make))
    (f := fun x => totalBytes x.2.internalQueue) (b := 44) (by decide +kernel)
  refine ⟨t, q, hrun, queue_conserves (fun ts at' contents hmem => ?_) hrun ?_⟩
  · simp only [threePackets, List.mem_cons, List.not_mem_nil, or_false, reduceCtorEq,
      Call.enqueue.injEq, false_or] at hmem
    obtain ⟨-, -, rfl⟩ | ⟨-, -, rfl⟩ | ⟨-, -, rfl⟩ := hmem <;> simp
  · dsimp only at hq
    rw [hq]
    decide

end Discipline

end Mahimahi
