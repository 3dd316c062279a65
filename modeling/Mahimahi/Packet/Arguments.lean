import Mahimahi.Http.Header

/-!
# Packet — the queue arguments

`NAME=VALUE[, NAME2=VALUE2, ...]`, from which a queue's constructor reads each value by its name.
`get_arg` looks for the name anywhere in the text, in other names and in values too.

* `getArg_join_iff`: what it returns, said of the pieces between the commas.
* `getArg_iff`: it returns the value paired with the name, or nothing, exactly when the first piece
  in which the name stands is `name=value` from there on, or there is no such piece.
-/

namespace Mahimahi

open Search

/-- `could not parse queue arguments: ` and the arguments. -/
inductive ArgumentError where
  | unparsed (args : Bytes)
  deriving DecidableEq, Repr

/-- `DroppingPacketQueue::get_arg` -/
def DroppingPacketQueue.getArg (args name : Bytes) : Except ArgumentError Bytes :=
  match find name args with
  | none => .ok []
  | some offset =>
      let offset := offset + name.length
      if (args.drop offset).take 1 ≠ [61] then .error (.unparsed args)
      else
        let digitString := (args.drop (offset + 1)).takeWhile (· ≠ 44)
        if digitString.isEmpty then .error (.unparsed args) else .ok digitString

/-- A pair, and whether a space is in front of it. -/
structure QueueArg where
  name : Bytes
  value : Bytes
  spaced : Bool
  deriving DecidableEq, Repr

namespace QueueArg

open DroppingPacketQueue

/-- An argument as it is written: its name, an equals sign and its value. -/
def item (a : QueueArg) : Bytes := a.name ++ 61 :: a.value

/-- What is written behind a comma. -/
def text (a : QueueArg) : Bytes := (if a.spaced then [32] else []) ++ a.item

/-- The arguments as they are written, one by one. -/
def pieces : List QueueArg → List Bytes
  | [] => []
  | a :: rest => a.item :: rest.map text

/-- Pieces with a comma between any two of them, the inverse of splitting at the commas. -/
def join : List Bytes → Bytes
  | [] => []
  | [p] => p
  | p :: q :: ps => p ++ 44 :: join (q :: ps)

/-- The whole list of arguments, as it stands on a command line. -/
def write (items : List QueueArg) : Bytes := join (pieces items)

/-! ### The pieces between the commas -/

/-- The first piece in which `name` stands reads `name=value` from there on. -/
def ReadsFirst (ps : List Bytes) (name value : Bytes) : Prop :=
  ∃ before u after, ps = before ++ (u ++ name ++ 61 :: value) :: after ∧
    (∀ p ∈ before, ¬ name <:+: p) ∧ find name (u ++ name ++ 61 :: value) = some u.length

variable {args name p value rest : Bytes} {ps : List Bytes}

/-- A name that does not occur in the list at all has an empty value. -/
theorem getArg_none (h : find name args = none) : getArg args name = .ok value ↔ value = [] := by
  rw [getArg, h, Except.ok.injEq]
  exact eq_comm

/-- Where the name is found, `=` and a value have to follow. -/
theorem getArg_found {i : Nat} (h : find name args = some i) : getArg args name = .ok value ↔
    ∃ w, args.drop (i + name.length) = 61 :: w ∧ w.takeWhile (· ≠ 44) = value ∧ value ≠ [] := by
  rw [getArg, h]
  dsimp only
  cases hrest : args.drop (i + name.length) with
  | nil =>
      rw [List.take_nil, if_pos (by simp)]
      exact iff_of_false (fun h => by cases h) fun ⟨w, h, _⟩ => by cases h
  | cons b w =>
      have hw : args.drop (i + name.length + 1) = w := by
        rw [← List.drop_drop, hrest]
        rfl
      simp only [hw, List.cons.injEq]
      by_cases hb : b = 61
      · rw [if_neg (by simp [hb])]
        split
        next hempty =>
          refine iff_of_false (fun h => by cases h) ?_
          rintro ⟨w', ⟨-, rfl⟩, hv, hne⟩
          exact hne (hv.symm.trans (by simpa using hempty))
        next hempty =>
          rw [Except.ok.injEq]
          constructor
          · rintro rfl
            exact ⟨w, ⟨hb, rfl⟩, rfl, by simpa using hempty⟩
          · rintro ⟨w', ⟨-, rfl⟩, hv, -⟩
            exact hv
      · rw [if_pos (by simpa using hb)]
        exact iff_of_false (fun h => by cases h) fun ⟨w', hw', _⟩ => hb hw'.1

/-- A piece without a comma is taken whole. -/
theorem takeWhile_piece (h : 44 ∉ p) : p.takeWhile (· ≠ 44) = p :=
  List.takeWhile_eq_self_iff.mpr fun b hb => by
    simpa using fun he : b = 44 => h (he ▸ hb)

/-- A piece is taken up to the comma behind it. -/
theorem takeWhile_comma (h : 44 ∉ p) : (p ++ 44 :: rest).takeWhile (· ≠ 44) = p := by
  have hall : ∀ b ∈ p, decide (b ≠ 44) = true := fun b hb => by
    simpa using fun he : b = 44 => h (he ▸ hb)
  rw [List.takeWhile_append_of_pos hall, List.takeWhile_cons_of_neg (by simp), List.append_nil]

/-- One piece. -/
theorem getArg_piece_iff (hp : 44 ∉ p) : getArg p name = .ok value ↔
    (value = [] ∧ ¬ name <:+: p) ∨
    (value ≠ [] ∧ ∃ u, p = u ++ name ++ 61 :: value ∧ find name p = some u.length) := by
  cases hfind : find name p with
  | none =>
      rw [getArg_none hfind]
      simp [find_eq_none.mp hfind]
  | some i =>
      have hinfix : name <:+: p := infix_of_find hfind
      have hle := find_le hfind
      rw [getArg_found hfind, or_iff_right fun h => h.2 hinfix]
      constructor
      · rintro ⟨w, hdrop, rfl, hne⟩
        have hsplit : p = p.take i ++ name ++ 61 :: w := by
          obtain ⟨v, hv⟩ := isPrefix_of_find hfind
          rw [← List.drop_drop, ← hv, List.drop_left] at hdrop
          rw [List.append_assoc, ← hdrop, hv, List.take_append_drop]
        have hw : 44 ∉ w := fun h =>
          hp (hsplit ▸ List.mem_append_right _ (List.mem_cons_of_mem _ h))
        refine ⟨hne, p.take i, ?_, ?_⟩
        · rw [takeWhile_piece hw]
          exact hsplit
        · rw [List.length_take, Nat.min_eq_left (by omega)]
      · rintro ⟨hne, u, rfl, hu⟩
        have hv : 44 ∉ value := fun h => hp (List.mem_append_right _ (List.mem_cons_of_mem _ h))
        obtain rfl := Option.some.inj hu
        refine ⟨value, ?_, takeWhile_piece hv, hne⟩
        rw [← List.length_append, List.drop_left]

/-- A name that is not in the first piece is looked for behind it. -/
theorem getArg_behind (hne : name ≠ []) (hname : 44 ∉ name) (hp : find name p = none) :
    getArg (p ++ 44 :: rest) name = .ok value ↔ getArg rest name = .ok value := by
  have hfind := find_append_cons (l := p) (m := rest) hname hne
  rw [hp, Option.none_or] at hfind
  cases hj : find name rest with
  | none =>
      rw [hj] at hfind
      rw [getArg_none hfind, getArg_none hj]
  | some j =>
      rw [hj] at hfind
      have hlen : j + (p.length + 1) + name.length = (p ++ [44]).length + (j + name.length) := by
        rw [List.length_append, List.length_singleton]
        omega
      rw [getArg_found hfind, getArg_found hj, List.append_cons, hlen, List.drop_length_add_append]

/-- What follows a name in the first piece stops at its comma. -/
theorem getArg_within {i : Nat} (hne : name ≠ []) (hname : 44 ∉ name) (hcomma : 44 ∉ p)
    (hp : find name p = some i) :
    getArg (p ++ 44 :: rest) name = .ok value ↔ getArg p name = .ok value := by
  have hfind := find_append_cons (l := p) (m := rest) hname hne
  rw [hp, Option.some_or] at hfind
  rw [getArg_found hfind, getArg_found hp, List.drop_append_of_le_length (find_le hp)]
  have hnot : ∀ {b w}, p.drop (i + name.length) = b :: w → 44 ∉ w := fun hdrop h =>
    hcomma (List.mem_of_mem_drop (hdrop ▸ List.mem_cons_of_mem _ h))
  constructor
  · rintro ⟨w, hdrop, hv, hne⟩
    cases htail : p.drop (i + name.length) with
    | nil =>
        rw [htail] at hdrop
        cases hdrop
    | cons b w' =>
        rw [htail, List.cons_append] at hdrop
        obtain ⟨rfl, rfl⟩ := List.cons.inj hdrop
        rw [takeWhile_comma (hnot htail)] at hv
        exact ⟨w', rfl, (takeWhile_piece (hnot htail)).trans hv, hne⟩
  · rintro ⟨w, hdrop, hv, hne⟩
    refine ⟨w ++ 44 :: rest, by rw [hdrop, List.cons_append], ?_, hne⟩
    rw [takeWhile_comma (hnot hdrop), ← takeWhile_piece (hnot hdrop)]
    exact hv

/-- A piece in front. -/
theorem getArg_comma_iff (hp : 44 ∉ p) (hne : name ≠ []) (hname : 44 ∉ name) :
    getArg (p ++ 44 :: rest) name = .ok value ↔
      if name <:+: p then getArg p name = .ok value else getArg rest name = .ok value := by
  cases hi : find name p with
  | none => rw [if_neg (find_eq_none.mp hi), getArg_behind hne hname hi]
  | some i => rw [if_pos (infix_of_find hi), getArg_within hne hname hp hi]

theorem not_readsFirst_nil : ¬ ReadsFirst [] name value := by
  rintro ⟨before, u, after, he, -⟩
  simp at he

/-- The first piece in which the name occurs anywhere decides, whether the name is its own or not.
-/
theorem readsFirst_cons_iff : ReadsFirst (p :: ps) name value ↔
    if name <:+: p then ∃ u, p = u ++ name ++ 61 :: value ∧ find name p = some u.length
    else ReadsFirst ps name value := by
  constructor
  · rintro ⟨before, u, after, he, hbefore, hfind⟩
    cases before with
    | nil =>
        obtain ⟨rfl, -⟩ := List.cons.inj he
        rw [if_pos (List.infix_append _ _ _)]
        exact ⟨u, rfl, hfind⟩
    | cons q before =>
        obtain ⟨rfl, hrest⟩ := List.cons.inj he
        obtain ⟨hq, hbefore⟩ := List.forall_mem_cons.mp hbefore
        rw [if_neg hq]
        exact ⟨before, u, after, hrest, hbefore, hfind⟩
  · split
    next =>
      rintro ⟨u, rfl, hfind⟩
      exact ⟨[], u, ps, rfl, fun q hq => by (cases hq), hfind⟩
    next hno =>
      rintro ⟨before, u, after, rfl, hbefore, hfind⟩
      exact ⟨p :: before, u, after, rfl, List.forall_mem_cons.mpr ⟨hno, hbefore⟩, hfind⟩

/-- **What `get_arg` returns**, said of the pieces. -/
theorem getArg_join_iff (hne : name ≠ []) (hname : 44 ∉ name) : ∀ {ps : List Bytes},
    (∀ p ∈ ps, 44 ∉ p) → (getArg (join ps) name = .ok value ↔
      (value = [] ∧ ∀ p ∈ ps, ¬ name <:+: p) ∨ (value ≠ [] ∧ ReadsFirst ps name value))
  | [], _ => by
      have hnil : ¬ name <:+: [] := fun h => hne (List.infix_nil.mp h)
      rw [join, getArg_piece_iff List.not_mem_nil]
      refine or_congr (and_congr_right fun _ => iff_of_true hnil fun p hp => by cases hp) ?_
      refine and_congr_right fun _ => iff_of_false ?_ not_readsFirst_nil
      rintro ⟨u, he, -⟩
      simp at he
  | [p], hp => by
      rw [join, getArg_piece_iff (hp p List.mem_cons_self), readsFirst_cons_iff,
        List.forall_mem_singleton]
      refine or_congr_right (and_congr_right fun _ => ?_)
      split
      · exact Iff.rfl
      next hno =>
        refine iff_of_false ?_ not_readsFirst_nil
        rintro ⟨u, rfl, -⟩
        exact hno (List.infix_append _ _ _)
  | p :: q :: ps, hp => by
      obtain ⟨hp, hrest⟩ := List.forall_mem_cons.mp hp
      rw [join, getArg_comma_iff hp hne hname, readsFirst_cons_iff, List.forall_mem_cons]
      split
      next hin =>
        rw [getArg_piece_iff hp]
        refine or_congr_left (and_congr_right fun _ => iff_of_false (not_not.mpr hin) ?_)
        exact fun h => h.1 hin
      next hno =>
        rw [getArg_join_iff hne hname hrest, and_iff_right hno]

/-! ### Lists of arguments -/

/-- What the list says of a name: the value of the first argument that has it. -/
def valueOf (items : List QueueArg) (name : Bytes) : Option Bytes :=
  (items.find? (·.name == name)).map QueueArg.value

/-- A name: not empty, without a comma or an equals sign. -/
structure IsName (name : Bytes) : Prop where
  ne_nil : name ≠ []
  comma : 44 ∉ name
  equals : 61 ∉ name

instance (name : Bytes) : Decidable (IsName name) :=
  decidable_of_iff (name ≠ [] ∧ 44 ∉ name ∧ 61 ∉ name)
    ⟨fun ⟨h₁, h₂, h₃⟩ => ⟨h₁, h₂, h₃⟩, fun ⟨h₁, h₂, h₃⟩ => ⟨h₁, h₂, h₃⟩⟩

/-- The names are distinct, and no value is empty or has a comma. -/
structure WellFormed (items : List QueueArg) : Prop where
  distinct : (items.map QueueArg.name).Nodup
  names : ∀ a ∈ items, IsName a.name
  values : ∀ a ∈ items, a.value ≠ [] ∧ 44 ∉ a.value

instance (items : List QueueArg) : Decidable (WellFormed items) :=
  decidable_of_iff ((items.map QueueArg.name).Nodup ∧ (∀ a ∈ items, IsName a.name) ∧
      ∀ a ∈ items, a.value ≠ [] ∧ 44 ∉ a.value)
    ⟨fun ⟨h₁, h₂, h₃⟩ => ⟨h₁, h₂, h₃⟩, fun ⟨h₁, h₂, h₃⟩ => ⟨h₁, h₂, h₃⟩⟩

/-- The first piece in which the name stands reads `name=value` from there on; a name that is not in
the list stands nowhere. -/
def Unmistakable (items : List QueueArg) (name : Bytes) : Prop :=
  match valueOf items name with
  | some value => ReadsFirst (pieces items) name value
  | none => ∀ p ∈ pieces items, ¬ name <:+: p

/-- No piece of a well-formed list has a comma. -/
theorem WellFormed.no_comma {items : List QueueArg} (h : WellFormed items) :
    ∀ p ∈ pieces items, 44 ∉ p := by
  have hitem : ∀ a ∈ items, 44 ∉ a.item := by
    intro a ha hmem
    rcases List.mem_append.mp hmem with hmem | hmem
    · exact (h.names a ha).comma hmem
    · rcases List.mem_cons.mp hmem with he | hmem
      · exact absurd he (by decide)
      · exact (h.values a ha).2 hmem
  cases items with
  | nil => exact fun p hp => by (cases hp)
  | cons a rest =>
      rintro p hp
      rcases List.mem_cons.mp hp with rfl | hp
      · exact hitem a List.mem_cons_self
      · obtain ⟨b, hb, rfl⟩ := List.mem_map.mp hp
        intro hmem
        rcases List.mem_append.mp hmem with hmem | hmem
        · split at hmem
          · simp at hmem
          · cases hmem
        · exact hitem b (List.mem_cons_of_mem _ hb) hmem

/-- **`get_arg` returns the value paired with the name**, or nothing, exactly when the name cannot
be mistaken for a part of another name or of a value. -/
theorem getArg_iff {items : List QueueArg} (h : WellFormed items) {name : Bytes}
    (hname : IsName name) :
    getArg (write items) name = .ok ((valueOf items name).getD []) ↔ Unmistakable items name := by
  rw [write, getArg_join_iff hname.ne_nil hname.comma h.no_comma, Unmistakable]
  cases hv : valueOf items name with
  | none =>
      dsimp only [Option.getD_none]
      simp
  | some value =>
      have hne : value ≠ [] := by
        obtain ⟨a, ha, rfl⟩ := Option.map_eq_some_iff.mp hv
        exact (h.values a (List.mem_of_find?_eq_some ha)).1
      dsimp only [Option.getD_some]
      simp [hne]

/-- A file for the log whose name ends in that of a limit. -/
def loggedPackets : List QueueArg :=
  [⟨ascii "log_file", ascii "/tmp/packets", false⟩, ⟨ascii "packets", ascii "100", false⟩]

/-- A file whose name holds another limit. -/
def loggedBytes : List QueueArg :=
  [⟨ascii "log_file", ascii "bytes=3.log", false⟩, ⟨ascii "bytes", ascii "9000", true⟩]

/-- `get_arg` throws on the first list, and reads the wrong limit off the second. -/
theorem limit_mistaken :
    WellFormed loggedPackets ∧ IsName (ascii "packets") ∧
    valueOf loggedPackets (ascii "packets") = some (ascii "100") ∧
    getArg (write loggedPackets) (ascii "packets") =
      .error (.unparsed (ascii "log_file=/tmp/packets,packets=100")) ∧
    WellFormed loggedBytes ∧ IsName (ascii "bytes") ∧
    valueOf loggedBytes (ascii "bytes") = some (ascii "9000") ∧
    getArg (write loggedBytes) (ascii "bytes") = .ok (ascii "3.log") := by decide +kernel

/-- The arguments of a CoDel queue. -/
def codelArgs : List QueueArg :=
  [⟨ascii "packets", ascii "100", false⟩, ⟨ascii "target", ascii "5", true⟩,
    ⟨ascii "interval", ascii "100", true⟩]

/-- `target` is found where it stands, behind the limit on packets. -/
theorem getArg_iff_codelArgs :
    (getArg (write codelArgs) (ascii "target") =
        .ok ((valueOf codelArgs (ascii "target")).getD []) ↔
      Unmistakable codelArgs (ascii "target")) ∧
    getArg (write codelArgs) (ascii "target") = .ok (ascii "5") :=
  ⟨getArg_iff (by decide +kernel) (by decide +kernel), by decide +kernel⟩

end QueueArg

end Mahimahi
