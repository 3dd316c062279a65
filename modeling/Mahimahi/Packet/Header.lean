import Mathlib.Data.Fintype.Basic
import Mathlib.Data.Nat.Bitwise
import Mahimahi.Library.Runs

/-!
# Packet — queued packets and the application header

A packet is the string of bytes the TUN device delivers: 4 bytes of TUN header, 20 of IPv4, 8 of
UDP, and then the application header, three 32-bit words in network order.
`PacketHeader.ofPayload` reads the five words that the header's accessors look at, at offsets 12,
24, 32, 36 and 40.

A word is read out of `payload.c_str()`, so its last byte may be the terminating zero; a read past
that zero is undefined behaviour and is the fault `readPastEnd` here.  A packet of 44 bytes or more
always has a header (`ofPayload_ok`).

`QueuedPacket.stamp` is what the Octopus queues compare of a packet: the port, message number and
position of an Octopus packet, and nothing of any other packet.
-/

open Fallible

namespace Mahimahi

/-- What stops a packet queue: a failed assertion, an exception, or undefined behaviour. -/
inductive Fault where
  /-- `assert( queue_size_in_bytes_ >= 0 )` -/
  | sizeBytes
  /-- `assert( queue_size_in_packets_ >= 0 )` -/
  | sizePackets
  /-- `assert( good() )` -/
  | notGood
  /-- `assert( not internal_queue_.empty() )`, or `front()` of an empty queue -/
  | emptyQueue
  /-- a SOLO packet arrives and its number already has a counter -/
  | soloCounted
  /-- a SOLO packet leaves and its counter is not 2 -/
  | soloCounter
  /-- `std::out_of_range`, thrown by `at()` -/
  | outOfRange
  /-- a header word that lies past the end of the packet -/
  | readPastEnd
  /-- `fprintf` to a null handle -/
  | nullLog
  deriving DecidableEq, Repr

/-- The bytes of a datagram as the TUN device gives them, packet information first. -/
abbrev Payload := List UInt8

/-- A packet, when it came, and whether it has been marked to be dropped. -/
structure QueuedPacket where
  arrivalTime : Nat
  contents : Payload
  isDrop : Bool := false
  deriving DecidableEq, Repr

/-- The place of a packet in its message. -/
inductive PktPos where
  | first
  | last
  | mid
  | solo
  deriving DecidableEq, Repr

/-- The words of a packet that `PacketHeader` keeps (`UDT4_PKT`). -/
structure PacketHeader where
  seq : UInt32
  msgField : UInt32
  wildcard : UInt32
  ipField : UInt32
  udpField : UInt32
  deriving DecidableEq, Repr

/-- `memcpy` of the word at `payload.c_str() + offset`, then `ntohl`. -/
def ntohlAt (payload : Payload) (offset : Nat) : Except Fault UInt32 :=
  match (payload ++ [0]).drop offset with
  | b₀ :: b₁ :: b₂ :: b₃ :: _ =>
      .ok (b₀.toUInt32 <<< 24 ||| b₁.toUInt32 <<< 16 ||| b₂.toUInt32 <<< 8 ||| b₃.toUInt32)
  | _ => .error .readPastEnd

/-- A word is read when its last byte is in the payload or right behind it, where a string has its
zero. -/
theorem ntohlAt_ok_iff {payload : Payload} {offset : Nat} :
    (∃ w, ntohlAt payload offset = .ok w) ↔ offset + 4 ≤ payload.length + 1 := by
  have hlen : ((payload ++ [0]).drop offset).length = payload.length + 1 - offset := by simp
  unfold ntohlAt
  split
  next hd =>
    rw [hd] at hlen
    simp only [List.length_cons] at hlen
    exact ⟨fun _ => by omega, fun _ => ⟨_, rfl⟩⟩
  next hno =>
    refine iff_of_false (fun h => by obtain ⟨w, hw⟩ := h; cases hw) fun hle => ?_
    match hd : (payload ++ [0]).drop offset with
    | [] | [_] | [_, _] | [_, _, _] =>
        rw [hd] at hlen
        simp only [List.length_cons, List.length_nil] at hlen
        omega
    | _ :: _ :: _ :: _ :: _ => exact absurd hd (hno _ _ _ _ _)

namespace PacketHeader

/-- Where the payload of a UDP datagram begins, behind the packet information and the two headers.
-/
def appHeaderOffset : Nat := 32

/-- The header, unless one of its words would be read behind the payload. -/
def ofPayload (payload : Payload) : Except Fault PacketHeader := do
  let ipField ← ntohlAt payload 12
  let udpField ← ntohlAt payload 24
  let seq ← ntohlAt payload appHeaderOffset
  let msgField ← ntohlAt payload (appHeaderOffset + 4)
  let wildcard ← ntohlAt payload (appHeaderOffset + 8)
  return { seq, msgField, wildcard, ipField, udpField }

/-- The last word may end in the terminating zero. -/
theorem ofPayload_ok_iff {payload : Payload} :
    (∃ header, ofPayload payload = .ok header) ↔ 43 ≤ payload.length := by
  constructor
  · rintro ⟨header, h⟩
    obtain ⟨ip, -, h⟩ := bind_ok.mp h
    obtain ⟨udp, -, h⟩ := bind_ok.mp h
    obtain ⟨seq, -, h⟩ := bind_ok.mp h
    obtain ⟨msg, -, h⟩ := bind_ok.mp h
    obtain ⟨wild, hwild, -⟩ := bind_ok.mp h
    have hle := ntohlAt_ok_iff.mp ⟨wild, hwild⟩
    simp only [appHeaderOffset] at hle
    omega
  · intro h
    have hword : ∀ offset ≤ 40, ∃ w, ntohlAt payload offset = .ok w :=
      fun offset hle => ntohlAt_ok_iff.mpr (by omega)
    obtain ⟨ip, hip⟩ := hword 12 (by decide)
    obtain ⟨udp, hudp⟩ := hword 24 (by decide)
    obtain ⟨seq, hseq⟩ := hword 32 (by decide)
    obtain ⟨msg, hmsg⟩ := hword 36 (by decide)
    obtain ⟨wild, hwild⟩ := hword 40 (by decide)
    exact ⟨_, by simp only [ofPayload, appHeaderOffset, hip, hudp, hseq, hmsg, hwild, ok_bind]; rfl⟩

/-- A packet of 44 bytes has a whole header. -/
theorem ofPayload_ok {payload : Payload} (h : 44 ≤ payload.length) :
    ∃ header, ofPayload payload = .ok header := ofPayload_ok_iff.mpr (by omega)

/-- Nothing else can go wrong. -/
theorem ofPayload_faults (payload : Payload) :
    Ensures (· = .readPastEnd) (fun _ => True) (ofPayload payload) := by
  have hword : ∀ offset, Ensures (· = .readPastEnd) (fun _ => True) (ntohlAt payload offset) := by
    intro offset
    unfold ntohlAt
    split
    · trivial
    · rfl
  refine (hword _).bind fun _ _ => (hword _).bind fun _ _ => (hword _).bind fun _ _ => ?_
  exact (hword _).bind fun _ _ => (hword _).bind fun _ _ => trivial

/-- The number of the message, from the 29 lower bits of its word. -/
def msgNo (h : PacketHeader) : Int := (h.msgField &&& 0x1fffffff).toNat

/-- Whether the packet is the first or the last of its message, both or neither. -/
def pktPos (h : PacketHeader) : PktPos :=
  if h.msgField &&& 0xc0000000 = 0x80000000 then .first
  else if h.msgField &&& 0xc0000000 = 0x40000000 then .last
  else if h.msgField &&& 0xc0000000 = 0x00000000 then .mid
  else .solo

/-- A value below 8, so that it can index the 8 entries of `prio_to_droppers_`. -/
def priority (h : PacketHeader) : Fin 8 :=
  ⟨((h.wildcard &&& 0xe0000000) >>> 29).toNat, by
    have hle : h.wildcard.toNat &&& 0xe0000000 ≤ 0xe0000000 := Nat.and_le_right
    simp [UInt32.toNat_shiftRight, Nat.shiftRight_eq_div_pow]
    omega⟩

/-- The threshold under which the message is entered as a dropper. -/
def priorityThreshold (h : PacketHeader) : Fin 8 :=
  ⟨((h.wildcard &&& 0x1c000000) >>> 26).toNat, by
    have hle : h.wildcard.toNat &&& 0x1c000000 ≤ 0x1c000000 := Nat.and_le_right
    simp [UInt32.toNat_shiftRight, Nat.shiftRight_eq_div_pow]
    omega⟩

def isPreempt (h : PacketHeader) : Bool := h.wildcard &&& 0x2000000 != 0

/-- How long a packet of the message may wait before the rules apply to it. -/
def slackTime (h : PacketHeader) : Nat := ((h.wildcard &&& 0x01ff0000) >>> 16).toNat

/-- The bit rate of the message, which is held against the fair share. -/
def bitrate (h : PacketHeader) : Nat := (h.wildcard &&& 0x0000ffff).toNat

/-- The datagram is UDP, whose protocol number is 17. -/
def isUdp (h : PacketHeader) : Bool := (h.ipField >>> 16) &&& 0x000000ff == 17

/-- The datagram is Octopus traffic, by two flags of its sequence number. -/
def isOctopus (h : PacketHeader) : Bool := h.isUdp && h.seq &&& 0xa0000000 == 0

def dstport (h : PacketHeader) : UInt16 := (h.udpField &&& 0x0000ffff).toUInt16

theorem msgNo_nonneg (h : PacketHeader) : 0 ≤ h.msgNo := Int.natCast_nonneg _

end PacketHeader

/-- What the Octopus queues compare of an Octopus packet. -/
structure Stamp where
  port : UInt16
  no : Int
  pos : PktPos
  deriving DecidableEq, Repr

/-- The stamp of the header of a datagram that is Octopus traffic. -/
def PacketHeader.stamp (h : PacketHeader) : Option Stamp :=
  if h.isOctopus then some ⟨h.dstport, h.msgNo, h.pktPos⟩ else none

namespace QueuedPacket

/-- The header of the packet, if it can be read. -/
def header? (p : QueuedPacket) : Option PacketHeader :=
  match PacketHeader.ofPayload p.contents with
  | .ok h => some h
  | .error _ => none

/-- The stamp of the packet, if it has one. -/
def stamp (p : QueuedPacket) : Option Stamp := p.header?.bind PacketHeader.stamp

theorem header?_of_ok {p : QueuedPacket} {h : PacketHeader}
    (hp : PacketHeader.ofPayload p.contents = .ok h) : p.header? = some h := by
  simp [header?, hp]

theorem stamp_of_ok {p : QueuedPacket} {h : PacketHeader}
    (hp : PacketHeader.ofPayload p.contents = .ok h) : p.stamp = h.stamp := by
  simp [stamp, header?_of_ok hp]

end QueuedPacket

/-- The bytes of a word in network order. -/
def htonl (w : UInt32) : Payload :=
  [(w >>> 24).toUInt8, (w >>> 16).toUInt8, (w >>> 8).toUInt8, w.toUInt8]

/-- A UDP packet of 44 bytes with the given port and application header. -/
def udpPayload (dstport : UInt16) (seq msgField wildcard : UInt32) : Payload :=
  List.replicate 12 0 ++ htonl 0x00110000 ++ List.replicate 8 0 ++ htonl dstport.toUInt32 ++
    List.replicate 4 0 ++ htonl seq ++ htonl msgField ++ htonl wildcard

example : PacketHeader.ofPayload (udpPayload 4433 7 0x80000005 0x20010003) =
    .ok ⟨7, 0x80000005, 0x20010003, 0x00110000, 4433⟩ := by decide

end Mahimahi
