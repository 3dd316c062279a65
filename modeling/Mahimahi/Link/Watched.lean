import Mahimahi.Link.Runs

/-!
# Link — a link over another view of its packet queue

* `run_mapQueue`: a map of packet queues that keeps what their functions do keeps what a link over
  them does.

A link only sees the virtual functions of its packet queue, so a queue that remembers more about
itself can be put in its place.
-/

open Fallible MachineInt

namespace Mahimahi

open AbstractPacketQueue

/-- A map of packet queues that keeps what their functions do. -/
structure QueueMap (Q Q' : Type) [AbstractPacketQueue Q] [AbstractPacketQueue Q'] where
  map : Q → Q'
  enqueue_map : ∀ ts p q, enqueue ts p (map q) = (enqueue ts p q).map map
  dequeue_map : ∀ ts q, dequeue ts (map q) = (dequeue ts q).map (Prod.map id map)
  empty_map : ∀ q, empty (map q) = empty q
  sizeBytes_map : ∀ q, sizeBytes (map q) = sizeBytes q
  sizePackets_map : ∀ q, sizePackets (map q) = sizePackets q
  setBandwidth_map : ∀ bandwidth q, setBandwidth bandwidth (map q) = map (setBandwidth bandwidth q)

namespace LinkQueue

variable {sched : Schedule} {Q Q' : Type}

/-- The link over the image of its packet queue. -/
def mapQueue (f : Q → Q') (s : LinkQueue sched Q) : LinkQueue sched Q' :=
  { s with packetQueue := f s.packetQueue }

theorem ofQueue_map {α β : Type} {x : Except Fault α} {f : α → β} :
    ofQueue (x.map f) = (ofQueue x).map f := by
  cases x <;> rfl

variable [AbstractPacketQueue Q] [AbstractPacketQueue Q'] (F : QueueMap Q Q')

theorem useADeliveryOpportunity_mapQueue (s : LinkQueue sched Q) :
    (s.mapQueue F.map).useADeliveryOpportunity = s.useADeliveryOpportunity.mapQueue F.map := by
  have hqueue : setBandwidth s.dequeueRate (F.map s.packetQueue) =
      F.map (setBandwidth s.dequeueRate s.packetQueue) := F.setBandwidth_map _ _
  unfold useADeliveryOpportunity
  dsimp only [mapQueue, recordDepartureOpportunity, writeLog]
  rw [hqueue]
  by_cases hwrap : (s.nextDelivery.val + 1) % sched.size = 0
  · cases hrep : s.repeats with
    | true => simp only [hwrap, if_true]; rfl
    | false => simp only [hwrap, if_true, Bool.false_eq_true, if_false]; rfl
  · simp only [if_neg hwrap]; rfl

theorem depart_mapQueue (t : Nat) (s : LinkQueue sched Q) :
    (s.mapQueue F.map).depart t = (s.depart t).map (mapQueue F.map) := by
  unfold depart recordDeparture
  simp only [mapQueue, F.sizePackets_map]
  split
  · cases ofQueue (sizePackets s.packetQueue) <;> rfl
  · rfl

theorem load_mapQueue (now : Nat) (s : LinkQueue sched Q) :
    (s.mapQueue F.map).load now = (s.load now).map (mapQueue F.map) := by
  unfold load
  simp only [mapQueue, F.dequeue_map, ofQueue_map]
  split
  · cases ofQueue (dequeue now s.packetQueue) <;> rfl
  · rfl

theorem sendSome_mapQueue (now t bytesLeft : Nat) (s : LinkQueue sched Q) :
    (s.mapQueue F.map).sendSome now t bytesLeft =
      (s.sendSome now t bytesLeft).map (Prod.map id (mapQueue F.map)) := by
  unfold sendSome
  rw [load_mapQueue, bind_map, map_bind]
  congr 1
  funext s₁
  rw [map_bind]
  congr 1
  funext _
  have hleft : (s₁.mapQueue F.map).packetInTransitBytesLeft = s₁.packetInTransitBytesLeft := rfl
  have hdepart : ∀ packetInTransitBytesLeft,
      depart t { s₁.mapQueue F.map with packetInTransitBytesLeft } =
        (depart t { s₁ with packetInTransitBytesLeft }).map (mapQueue F.map) :=
    fun packetInTransitBytesLeft => depart_mapQueue F t { s₁ with packetInTransitBytesLeft }
  simp only [hleft]
  split
  · rw [hdepart, bind_map, map_bind]
    rfl
  · rfl

theorem serve_mapQueue (now t : Nat) {fuel : Nat} : ∀ (bytesLeft sent : Nat) (s : LinkQueue sched Q),
    serve now t fuel bytesLeft sent (s.mapQueue F.map) =
      (serve now t fuel bytesLeft sent s).map (Prod.map id (mapQueue F.map)) := by
  induction fuel with
  | zero => intro bytesLeft sent s; rfl
  | succ fuel ih =>
      intro bytesLeft sent s
      have hempty : empty (s.mapQueue F.map).packetQueue = empty s.packetQueue := F.empty_map _
      have hleft : (s.mapQueue F.map).packetInTransitBytesLeft = s.packetInTransitBytesLeft := rfl
      rw [serve, serve, hempty, hleft]
      split
      · rfl
      · split
        · rfl
        · rw [sendSome_mapQueue, bind_map, map_bind]
          congr 1
          funext r
          exact ih _ _ _

theorem burn_mapQueue (now t : Nat) (s : LinkQueue sched Q) :
    (s.mapQueue F.map).burn now t = (s.burn now t).map (mapQueue F.map) := by
  unfold burn
  rw [useADeliveryOpportunity_mapQueue, serve_mapQueue, bind_map, map_bind]
  congr 1
  funext r
  have hempty : empty (r.2.mapQueue F.map).packetQueue = empty r.2.packetQueue := F.empty_map _
  simp only [Prod.map, hempty]
  rfl

theorem rationalizeLoop_mapQueue (now : Nat) {fuel : Nat} : ∀ s : LinkQueue sched Q,
    rationalizeLoop now fuel (s.mapQueue F.map) =
      (rationalizeLoop now fuel s).map (mapQueue F.map) := by
  induction fuel with
  | zero => intro s; rfl
  | succ fuel ih =>
      intro s
      have hnext : (s.mapQueue F.map).nextDeliveryTime = s.nextDeliveryTime := rfl
      rw [rationalizeLoop, rationalizeLoop, hnext]
      cases s.nextDeliveryTime with
      | none => rfl
      | some t =>
          dsimp only
          split
          · rw [burn_mapQueue, bind_map, map_bind]
            congr 1
            funext s₁
            exact ih s₁
          · rfl

theorem enqueuePacket_mapQueue (now : Nat) (contents : Payload) (s : LinkQueue sched Q) :
    (s.mapQueue F.map).enqueuePacket now contents =
      (s.enqueuePacket now contents).map (mapQueue F.map) := by
  unfold enqueuePacket
  simp only [mapQueue, recordArrival, writeLog, F.sizeBytes_map, F.sizePackets_map, F.enqueue_map,
    ofQueue_map, bind_map, map_bind]
  congr 1
  funext bytesBefore
  congr 1
  funext packetsBefore
  congr 1
  funext q
  congr 1
  funext packetsAfter
  split
  · rfl
  · rw [map_bind]
    congr 1
    funext bytesAfter
    split
    · rfl
    · split <;> rfl

theorem step_mapQueue (c : Call) (s : LinkQueue sched Q) :
    c.step (s.mapQueue F.map) = (c.step s).map (mapQueue F.map) := by
  cases c with
  | readPacket now contents =>
      show (s.mapQueue F.map).readPacket now contents = (s.readPacket now contents).map _
      unfold readPacket
      split
      · rfl
      · rw [rationalize, rationalizeLoop_mapQueue, bind_map, map_bind]
        congr 1
        funext s₁
        exact enqueuePacket_mapQueue F now contents s₁
  | waitTime now =>
      show ((s.mapQueue F.map).waitTime now).map _ = ((s.waitTime now).map Prod.snd).map _
      unfold waitTime rationalize
      rw [rationalizeLoop_mapQueue, bind_map]
      cases rationalizeLoop now (sched.passes now) s <;> rfl
  | writePackets => rfl

/-- **A link does the same over the image of its packet queue.** -/
theorem run_mapQueue (calls : List Call) : ∀ s : LinkQueue sched Q,
    run Call.step calls (s.mapQueue F.map) = (run Call.step calls s).map (mapQueue F.map) := by
  induction calls with
  | nil => intro s; rfl
  | cons c calls ih =>
      intro s
      rw [run_cons, run_cons, step_mapQueue, bind_map, map_bind]
      congr 1
      funext s₁
      exact ih s₁

end LinkQueue

end Mahimahi
