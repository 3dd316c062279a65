import Mathlib.Logic.Function.Basic
import Mahimahi.Packet.Header

/-!
# Packet — the bytes that `PacketHeader` reads

The constructor copies five words from `payload.c_str()` on, and nothing tells it where the packet
ends.  `ofMemory` is the constructor over the bytes that lie there: the packet, the terminating zero
and whatever is behind (`memory`).  It reads a byte if the header can change with that byte alone.

* `ofPayload_memory`: with its last word in the packet or ending in the zero, that is the header.
* `reads_iff`: the bytes read.
* `readsInside_iff`: they are all in the packet when it has 44 bytes or more.
-/

namespace Mahimahi

namespace PacketHeader

/-- The word at `offset`, after `ntohl`. -/
def wordAt (mem : Nat → UInt8) (offset : Nat) : UInt32 :=
  (mem offset).toUInt32 <<< 24 ||| (mem (offset + 1)).toUInt32 <<< 16 |||
    (mem (offset + 2)).toUInt32 <<< 8 ||| (mem (offset + 3)).toUInt32

/-- The header over the memory from the payload on, whatever is behind the payload. -/
def ofMemory (mem : Nat → UInt8) : PacketHeader where
  ipField := wordAt mem 12
  udpField := wordAt mem 24
  seq := wordAt mem appHeaderOffset
  msgField := wordAt mem (appHeaderOffset + 4)
  wildcard := wordAt mem (appHeaderOffset + 8)

/-- The bytes from `payload.c_str()` on. -/
def memory (payload : Payload) (behind : Nat → UInt8) (i : Nat) : UInt8 :=
  (payload ++ [0]).getD i (behind i)

/-- A word that ends before the bytes behind the zero. -/
theorem ntohlAt_memory {payload : Payload} {offset : Nat} (h : offset + 4 ≤ payload.length + 1)
    (behind : Nat → UInt8) : ntohlAt payload offset = .ok (wordAt (memory payload behind) offset) := by
  have hbyte : ∀ k < 4, ∃ b, (payload ++ [0])[offset + k]? = some b := by
    intro k hk
    have hlt : offset + k < (payload ++ [0]).length := by
      rw [List.length_append, List.length_singleton]
      omega
    exact ⟨_, List.getElem?_eq_getElem hlt⟩
  obtain ⟨b₀, h₀⟩ := hbyte 0 (by decide)
  obtain ⟨b₁, h₁⟩ := hbyte 1 (by decide)
  obtain ⟨b₂, h₂⟩ := hbyte 2 (by decide)
  obtain ⟨b₃, h₃⟩ := hbyte 3 (by decide)
  have hdrop : ∃ rest, (payload ++ [0]).drop offset = b₀ :: b₁ :: b₂ :: b₃ :: rest := by
    simp only [← List.getElem?_drop] at h₀ h₁ h₂ h₃
    match hd : (payload ++ [0]).drop offset with
    | [] | [_] | [_, _] | [_, _, _] => rw [hd] at h₃; cases h₃
    | c₀ :: c₁ :: c₂ :: c₃ :: rest =>
        rw [hd] at h₀ h₁ h₂ h₃
        cases h₀
        cases h₁
        cases h₂
        cases h₃
        exact ⟨rest, rfl⟩
  obtain ⟨rest, hdrop⟩ := hdrop
  have hmem : ∀ {k b}, (payload ++ [0])[offset + k]? = some b →
      memory payload behind (offset + k) = b := fun hk => by
    rw [memory, List.getD_eq_getElem?_getD, hk, Option.getD_some]
  rw [ntohlAt, hdrop, wordAt, hmem h₁, hmem h₂, hmem h₃]
  rw [show memory payload behind offset = b₀ from hmem h₀]

/-- Of a payload that is long enough, the header is that of the memory where it lies, whatever is
behind it. -/
theorem ofPayload_memory {payload : Payload} (h : 43 ≤ payload.length) (behind : Nat → UInt8) :
    ofPayload payload = .ok (ofMemory (memory payload behind)) := by
  have hword : ∀ offset ≤ 40,
      ntohlAt payload offset = .ok (wordAt (memory payload behind) offset) :=
    fun offset hle => ntohlAt_memory (by omega) behind
  rw [ofPayload, appHeaderOffset, hword 12 (by decide), hword 24 (by decide), hword 32 (by decide),
    hword 36 (by decide), hword 40 (by decide)]
  rfl

/-- The header can change with byte `i` alone. -/
def Reads (i : Nat) : Prop :=
  ∃ mem b, ofMemory (Function.update mem i b) ≠ ofMemory mem

/-- A byte outside a word does not change it. -/
theorem wordAt_update_of_ne {mem : Nat → UInt8} {i offset : Nat} (b : UInt8)
    (h : i < offset ∨ offset + 4 ≤ i) : wordAt (Function.update mem i b) offset = wordAt mem offset := by
  have hne : ∀ k < 4, Function.update mem i b (offset + k) = mem (offset + k) :=
    fun k hk => Function.update_of_ne (by omega) b mem
  rw [wordAt, hne 1 (by decide), hne 2 (by decide), hne 3 (by decide)]
  rw [show Function.update mem i b offset = mem offset from hne 0 (by decide)]
  rfl

/-- Every byte of a word can change it. -/
theorem wordAt_update_ne {i offset : Nat} (h : offset ≤ i) (hlt : i < offset + 4) :
    wordAt (Function.update (fun _ => 0) i 1) offset ≠ wordAt (fun _ => 0) offset := by
  obtain ⟨k, rfl⟩ := Nat.exists_eq_add_of_le h
  have hk : k < 4 := by omega
  have hone : (1 : UInt32) <<< 24 ≠ 0 ∧ (1 : UInt32) <<< 16 ≠ 0 ∧ (1 : UInt32) <<< 8 ≠ 0 := by decide
  match k, hk with
  | 0, _ | 1, _ | 2, _ | 3, _ => simp [wordAt, hone]

/-- **The bytes that are read**: the five words. -/
theorem reads_iff {i : Nat} :
    Reads i ↔ (12 ≤ i ∧ i < 16) ∨ (24 ≤ i ∧ i < 28) ∨ (32 ≤ i ∧ i < 44) := by
  constructor
  · rintro ⟨mem, b, hne⟩
    by_contra hno
    simp only [not_or, not_and, Nat.not_lt] at hno
    obtain ⟨hip, hudp, happ⟩ := hno
    refine hne ?_
    simp only [ofMemory, appHeaderOffset]
    rw [wordAt_update_of_ne b (by omega), wordAt_update_of_ne b (by omega),
      wordAt_update_of_ne b (by omega), wordAt_update_of_ne b (by omega),
      wordAt_update_of_ne b (by omega)]
  · intro h
    refine ⟨fun _ => 0, 1, fun he => ?_⟩
    obtain ⟨offset, hoffset, hle, hlt⟩ : ∃ offset,
        wordAt (Function.update (fun _ => 0) i 1) offset = wordAt (fun _ => 0) offset ∧
          offset ≤ i ∧ i < offset + 4 := by
      rcases h with ⟨hle, hlt⟩ | ⟨hle, hlt⟩ | ⟨hle, hlt⟩
      · exact ⟨12, congrArg ipField he, hle, hlt⟩
      · exact ⟨24, congrArg udpField he, hle, hlt⟩
      · by_cases h₁ : i < 36
        · exact ⟨32, congrArg seq he, hle, h₁⟩
        · by_cases h₂ : i < 40
          · exact ⟨36, congrArg msgField he, Nat.le_of_not_lt h₁, h₂⟩
          · exact ⟨40, congrArg wildcard he, Nat.le_of_not_lt h₂, hlt⟩
    exact wordAt_update_ne hle hlt hoffset

/-- Every byte read is one of the packet. -/
def ReadsInside (payload : Payload) : Prop := ∀ i, Reads i → i < payload.length

/-- Even the terminating zero is not one of the packet. -/
theorem readsInside_iff {payload : Payload} : ReadsInside payload ↔ 44 ≤ payload.length := by
  constructor
  · exact fun h => h 43 (reads_iff.mpr (by omega))
  · intro h i hi
    have := reads_iff.mp hi
    omega

end PacketHeader

end Mahimahi
