import Mahimahi.Library.Integers
import Mahimahi.Library.Runs
import Mahimahi.Library.Search
import Mahimahi.Util.Ezio

/-!
# Util — the addresses of a shell

Every shell takes two addresses of `100.64.0.0/24` for the two ends of its link.  It reads which
addresses are in use from `getifaddrs` and from the destinations in `/proc/net/route`, which is
where the shells around it show.

* `twoUnassigned_table`: for every routing table as Linux prints it, the two addresses are the first
  two that no interface and no route has and that are not to be avoided; an exception is thrown only
  if there are no two.

An address is its `s_addr` on a little-endian machine, which is how Linux prints it.
-/

open Fallible MachineInt

namespace Mahimahi

open Ezio Search

inductive InterfaceError where
  /-- `/proc/net/route: unknown format` -/
  | unknownFormat
  /-- `/proc/net/route line: unknown format` -/
  | unknownLine
  /-- `/proc/net/route destination address: unknown format` -/
  | unknownDestination
  /-- thrown by `myatoi` -/
  | invalid (e : IntegerError)
  /-- `Interfaces: could not find free interface address` -/
  | noFreeAddress
  deriving DecidableEq, Repr

namespace Interfaces

/-- What `getline` returns until it fails.  A last line need not end. -/
def getlines (text : Bytes) : List Bytes :=
  let pieces := text.splitOn 10
  if pieces.getLast? = some [] then pieces.dropLast else pieces

/-- `Iface` -/
def iface : Bytes := [73, 102, 97, 99, 101]

/-- The loop over the lines behind the header. -/
def destination (line : Bytes) : Except InterfaceError Nat :=
  match find [9] line with
  | none => .error .unknownLine
  | some tab =>
      let destStart := tab + 1
      match (find [9] (line.drop destStart)).map (· + destStart) with
      | none => .error .unknownLine
      | some destEnd =>
          let len := destEnd - destStart
          if len ≠ 8 then .error .unknownDestination
          else match myatoi 16 ((line.drop destStart).take len) with
            | .ok value => .ok (toU32 value)
            | .error e => .error (.invalid e)

/-- The destinations in `/proc/net/route`. -/
def routes (allRoutes : Bytes) : Except InterfaceError (List Nat) :=
  match getlines allRoutes with
  | [] => .ok []
  | header :: lines =>
      if find iface header ≠ some 0 then .error .unknownFormat else lines.mapM destination

/-- `100.64.0.lastOctet` -/
def cgnat (lastOctet : Nat) : Nat := 100 + 64 * 2 ^ 8 + 0 * 2 ^ 16 + lastOctet * 2 ^ 24

def addressInUse (addressesInUse : List Nat) (addr : Nat) : Bool :=
  addressesInUse.any fun x => addr == x

/-- The loop counts `last_octet` up to 255. -/
def firstUnassignedAddress (addressesInUse : List Nat) (lastOctet : Nat) :
    Except InterfaceError (Nat × Nat) :=
  match (List.range' lastOctet (256 - lastOctet)).find?
      (fun octet => !addressInUse addressesInUse (cgnat octet)) with
  | some octet => .ok (cgnat octet, octet)
  | none => .error .noFreeAddress

/-- `interfaces` are the addresses that `getifaddrs` finds. -/
def twoUnassignedAddresses (interfaces : List Nat) (allRoutes : Bytes) (avoid : Nat) :
    Except InterfaceError (Nat × Nat) := do
  let destinations ← routes allRoutes
  let addressesInUse := interfaces ++ destinations ++ [avoid]
  let one ← firstUnassignedAddress addressesInUse 1
  let two ← firstUnassignedAddress addressesInUse (one.2 + 1)
  return (one.1, two.1)

/-! ### The routing table as Linux prints it -/

/-- An upper-case digit. -/
def hexDigit (d : Nat) : UInt8 := if d < 10 then 48 + d.toUInt8 else 55 + d.toUInt8

/-- `k` digits of a number. -/
def hexDigits : Nat → Nat → Bytes
  | 0, _ => []
  | k + 1, n => hexDigits k (n / 16) ++ [hexDigit (n % 16)]

/-- A line of the table; `columns` are those behind the destination. -/
structure Route where
  name : Bytes
  address : Nat
  columns : Bytes
  name_ne : 9 ∉ name ∧ 10 ∉ name
  address_lt : address < 2 ^ 32
  columns_ne : 10 ∉ columns

/-- `%s\t%08X\t…` -/
def Route.print (r : Route) : Bytes := r.name ++ 9 :: (hexDigits 8 r.address ++ 9 :: r.columns)

/-- What stands in `/proc/net/route`: nothing without routes, not even a header. -/
def printTable (header : Bytes) (table : List Route) : Bytes :=
  if table = [] then []
  else ((iface ++ header) :: table.map Route.print).flatMap fun line => line ++ [10]

/-! ### Reading a line -/

theorem hexDigit_value : ∀ d < 16, digitValue (hexDigit d) = d := by decide

theorem isDigit_hexDigits {k n : Nat} : ∀ b ∈ hexDigits k n, isDigit 16 b = true := by
  induction k generalizing n with
  | zero => simp [hexDigits]
  | succ k ih =>
      intro b hb
      rcases List.mem_append.mp hb with hb | hb
      · exact ih b hb
      · rw [List.mem_singleton.mp hb, isDigit, hexDigit_value _ (Nat.mod_lt _ (by decide))]
        exact decide_eq_true (Nat.mod_lt _ (by decide))

theorem ofDigits_hexDigits (k n : Nat) : ofDigits 16 (hexDigits k n) = n % 16 ^ k := by
  induction k generalizing n with
  | zero => rw [pow_zero, Nat.mod_one]; rfl
  | succ k ih =>
      have hsnoc : ofDigits 16 (hexDigits (k + 1) n) =
          16 * ofDigits 16 (hexDigits k (n / 16)) + digitValue (hexDigit (n % 16)) := by
        simp [hexDigits, ofDigits]
      rw [hsnoc, ih, hexDigit_value _ (Nat.mod_lt _ (by decide)), pow_succ', Nat.mod_mul]
      omega

theorem length_hexDigits (k n : Nat) : (hexDigits k n).length = k := by
  induction k generalizing n with
  | zero => rfl
  | succ k ih => rw [hexDigits, List.length_append, ih]; rfl

/-- **A printed destination is read.** -/
theorem destination_print (r : Route) : destination r.print = .ok r.address := by
  have hdigits : ∀ b ∈ hexDigits 8 r.address, isDigit 16 b = true := isDigit_hexDigits
  have htab : (9 : UInt8) ∉ hexDigits 8 r.address := fun h => absurd (hdigits 9 h) (by decide)
  have hlength := length_hexDigits 8 r.address
  have hdrop : r.print.drop (r.name.length + 1) = hexDigits 8 r.address ++ 9 :: r.columns := by
    simp [Route.print, List.drop_append]
  have hvalue : ofDigits 16 (hexDigits 8 r.address) = r.address := by
    rw [ofDigits_hexDigits]
    exact Nat.mod_eq_of_lt r.address_lt
  have hread : myatoi 16 (hexDigits 8 r.address) = .ok (r.address : Int) := by
    have hne : hexDigits 8 r.address ≠ [] := by
      intro hnil
      rw [hnil] at hlength
      cases hlength
    have hlt := r.address_lt
    rw [myatoi_hex hne hdigits (by omega), hvalue]
  have hlt : (r.address : Int) < 2 ^ 32 := by exact_mod_cast r.address_lt
  have hsame : toU32 r.address = r.address := toU32_of_range (Int.natCast_nonneg _) hlt
  have hfind : find [9] r.print = some r.name.length := find_singleton r.name_ne.1
  rw [destination, hfind]
  dsimp only
  have htake : (hexDigits 8 r.address ++ 9 :: r.columns).take 8 = hexDigits 8 r.address := by
    rw [List.take_append_of_le_length hlength.ge, List.take_of_length_le hlength.le]
  rw [hdrop, find_singleton htab, hlength]
  simp only [Option.map_some, Nat.add_sub_cancel, ne_eq, not_true_eq_false, if_false, htake, hread,
    hsame]

/-! ### Reading the table -/

theorem splitOn_lines {lines : List Bytes} (h : ∀ line ∈ lines, (10 : UInt8) ∉ line) :
    (lines.flatMap fun line => line ++ [10]).splitOn 10 = lines ++ [[]] := by
  induction lines with
  | nil => rfl
  | cons line lines ih =>
      obtain ⟨hline, hlines⟩ := List.forall_mem_cons.mp h
      rw [List.flatMap_cons, List.append_assoc, List.singleton_append,
        List.splitOn_append_cons_self_of_not_mem hline, ih hlines]
      rfl

theorem getlines_lines {lines : List Bytes} (h : ∀ line ∈ lines, (10 : UInt8) ∉ line) :
    getlines (lines.flatMap fun line => line ++ [10]) = lines := by
  rw [getlines, splitOn_lines h]
  simp

theorem print_not_newline (r : Route) : (10 : UInt8) ∉ r.print := by
  have hdigits : (10 : UInt8) ∉ hexDigits 8 r.address := fun h =>
    absurd (isDigit_hexDigits 10 h) (by decide)
  simp [Route.print, r.name_ne.2, hdigits, r.columns_ne]

/-- **The destinations of a printed table are read.** -/
theorem routes_printTable {header : Bytes} (hheader : 10 ∉ header) (table : List Route) :
    routes (printTable header table) = .ok (table.map Route.address) := by
  rw [printTable]
  split
  next hnil =>
    rw [hnil]
    rfl
  next =>
    have hlines : ∀ line ∈ (iface ++ header) :: table.map Route.print, (10 : UInt8) ∉ line := by
      refine List.forall_mem_cons.mpr ⟨by simp [iface, hheader], fun line hline => ?_⟩
      obtain ⟨r, -, rfl⟩ := List.mem_map.mp hline
      exact print_not_newline r
    have hfind : find iface (iface ++ header) = some 0 := by
      simp [iface, find, List.isPrefixOf]
    rw [routes, getlines_lines hlines]
    dsimp only
    rw [if_neg (by simp [hfind]), List.mapM_map]
    exact mapM_ok fun r _ => destination_print r

/-! ### The addresses that are free -/

/-- `100.64.0.octet` may be taken. -/
structure Free (addressesInUse : List Nat) (octet : Nat) : Prop where
  pos : 1 ≤ octet
  le : octet ≤ 255
  unused : cgnat octet ∉ addressesInUse

variable {addressesInUse : List Nat}

theorem addressInUse_iff {addr : Nat} :
    addressInUse addressesInUse addr = true ↔ addr ∈ addressesInUse := by
  simp [addressInUse]

/-- The first address that is free from `lastOctet` on. -/
theorem firstUnassignedAddress_ensures {lastOctet : Nat} (hpos : 1 ≤ lastOctet) :
    Ensures
      (fun e => e = .noFreeAddress ∧ ∀ octet, lastOctet ≤ octet → ¬ Free addressesInUse octet)
      (fun r => r.1 = cgnat r.2 ∧ lastOctet ≤ r.2 ∧ Free addressesInUse r.2 ∧
        ∀ octet, lastOctet ≤ octet → Free addressesInUse octet → r.2 ≤ octet)
      (firstUnassignedAddress addressesInUse lastOctet) := by
  have hfree : ∀ octet, lastOctet ≤ octet → Free addressesInUse octet →
      octet ∈ List.range' lastOctet (256 - lastOctet) ∧
        (!addressInUse addressesInUse (cgnat octet)) = true := by
    intro octet hle h
    have hlast := h.le
    refine ⟨List.mem_range'_1.mpr ⟨hle, by omega⟩, ?_⟩
    rw [Bool.not_eq_true', Bool.eq_false_iff]
    exact fun hused => h.unused (addressInUse_iff.mp hused)
  rw [firstUnassignedAddress]
  split
  next octet hsome =>
    obtain ⟨hunused, hmem, hbefore⟩ := List.find?_range'_eq_some.mp hsome
    obtain ⟨hle, hlt⟩ := List.mem_range'_1.mp hmem
    refine ⟨rfl, hle, ⟨hpos.trans hle, by omega, fun hused => ?_⟩, fun other hother h => ?_⟩
    · rw [addressInUse_iff.mpr hused] at hunused
      cases hunused
    · by_contra hlt'
      have hused := hbefore other hother (Nat.not_le.mp hlt')
      rw [(hfree other hother h).2] at hused
      cases hused
  next hnone =>
    refine ⟨rfl, fun octet hle h => ?_⟩
    obtain ⟨hmem, hunused⟩ := hfree octet hle h
    exact List.find?_eq_none.mp hnone octet hmem hunused

/-- **The addresses of a shell** are the first two that are free. -/
theorem twoUnassigned_table (interfaces : List Nat) {header : Bytes} (hheader : 10 ∉ header)
    (table : List Route) (avoid : Nat) :
    let addressesInUse := interfaces ++ table.map Route.address ++ [avoid]
    Ensures
      (fun e => e = .noFreeAddress ∧
        ¬ ∃ i j, i < j ∧ Free addressesInUse i ∧ Free addressesInUse j)
      (fun r => ∃ i j, r = (cgnat i, cgnat j) ∧ i < j ∧ Free addressesInUse i ∧
        Free addressesInUse j ∧ ∀ octet, Free addressesInUse octet → octet = i ∨ j ≤ octet)
      (twoUnassignedAddresses interfaces (printTable header table) avoid) := by
  intro addressesInUse
  rw [twoUnassignedAddresses, routes_printTable hheader, ok_bind]
  refine Ensures.bind (Ensures.mono_error (firstUnassignedAddress_ensures (le_refl 1)) ?_) ?_
  · rintro e ⟨rfl, hnone⟩
    exact ⟨rfl, fun ⟨i, _, _, hi, _⟩ => hnone i hi.pos hi⟩
  · rintro ⟨one, i⟩ ⟨hone, -, hi, hfirst⟩
    dsimp only at hone hi hfirst
    subst hone
    refine Ensures.bind
      (Ensures.mono_error (firstUnassignedAddress_ensures (Nat.le_add_left 1 i)) ?_) ?_
    · rintro e ⟨rfl, hnone⟩
      refine ⟨rfl, fun ⟨k, j, hlt, hk, hj⟩ => ?_⟩
      exact hnone j (Nat.lt_of_le_of_lt (hfirst k hk.pos hk) hlt) hj
    · rintro ⟨two, j⟩ ⟨htwo, hij, hj, hsecond⟩
      dsimp only at htwo hij hj hsecond
      subst htwo
      refine ⟨i, j, rfl, hij, hi, hj, fun octet h => ?_⟩
      rcases Nat.eq_or_lt_of_le (hfirst octet h.pos h) with heq | hlt
      · exact .inl heq.symm
      · exact .inr (hsecond octet hlt h)

/-- The route to the other end of a shell. -/
def outerShell : Route where
  name := [100, 101, 108, 97, 121]
  address := cgnat 1
  columns := [48, 9, 53]
  name_ne := by decide
  address_lt := by decide
  columns_ne := by decide

/-- In a shell of the addresses 1 and 3. -/
theorem twoUnassigned_table_nested :
    twoUnassignedAddresses [cgnat 3] (printTable [9] [outerShell]) 0 = .ok (cgnat 2, cgnat 4) ∧
    ∃ i j, (cgnat 2, cgnat 4) = (cgnat i, cgnat j) ∧ i < j ∧
      Free ([cgnat 3] ++ [outerShell].map Route.address ++ [0]) i ∧
      Free ([cgnat 3] ++ [outerShell].map Route.address ++ [0]) j ∧
      ∀ octet, Free ([cgnat 3] ++ [outerShell].map Route.address ++ [0]) octet →
        octet = i ∨ j ≤ octet := by
  have hrun : twoUnassignedAddresses [cgnat 3] (printTable [9] [outerShell]) 0 =
      .ok (cgnat 2, cgnat 4) := by
    decide +kernel
  exact ⟨hrun, (twoUnassigned_table [cgnat 3] (by decide) [outerShell] 0).of_ok hrun⟩

end Interfaces

end Mahimahi
