import Mathlib.Data.List.Find
import Mathlib.Data.Nat.Find
import Octets.Proofs.Cursor.Transaction

/-!
# Tables as lists

A lead table that is built up from sequences and leads finds what a look through all of them
finds, in the order in which they came. The grouping shows nowhere: whatever is asked of the
sequences of a lead, the first answer from its group is the first answer from the list. A group
leaves out a lead that comes again while the group is nothing but that lead, and this can only
be asked of a list by looking behind the first answer.

## Main definitions

* `LeadTable.Addition`, `LeadTable.ofAdditions` — what a table is built up from
* `LeadTable.listed` — the sequences that come together in it
* `LeadTable.Holds` — a table that answers for a list
* `StandsFirst` — the first place of some bytes at which one of several sequences stands

## Main results

* `LeadTable.holds_ofAdditions` — a table answers for what it was built up from
* `LeadTable.Holds.find?_matchLengths` — the sequences of a table at the front of some bytes
* `LeadTable.apply_ofAdditions` — what the scans for a table do, said of its list
-/

namespace Octets

/-! ## Looking through a list -/

/-- One of the sequences stands at the place, at which it is the first that does, and none of
them stands further in front. -/
def StandsFirst (sequences : List Bytes) (bytes : Bytes) (place : Nat) (w : Bytes) : Prop :=
  sequences.find? (·.isPrefixOf (bytes.drop place)) = some w ∧
    ∀ i < place, ∀ v ∈ sequences, ¬ v <+: bytes.drop i

section Lists

variable {sequences : List Bytes} {bytes w : Bytes} {place : Nat}

theorem find?_isPrefixOf_eq_none :
    sequences.find? (·.isPrefixOf bytes) = none ↔ ∀ w ∈ sequences, ¬ w <+: bytes := by
  simp [List.find?_eq_none, List.isPrefixOf_iff_prefix]

theorem StandsFirst.mem (first : StandsFirst sequences bytes place w) : w ∈ sequences :=
  List.mem_of_find?_eq_some first.1

theorem StandsFirst.isPrefix (first : StandsFirst sequences bytes place w) :
    w <+: bytes.drop place :=
  List.isPrefixOf_iff_prefix.mp <|
    List.find?_some (p := fun v => List.isPrefixOf v (bytes.drop place)) first.1

/-- If a sequence stands anywhere, one of them is the first that does. -/
theorem exists_standsFirst (member : w ∈ sequences) (stands : w <+: bytes.drop place) :
    ∃ first v, StandsFirst sequences bytes first v := by
  classical
  have some_place : ∃ i, ∃ v ∈ sequences, v <+: bytes.drop i := ⟨place, w, member, stands⟩
  obtain ⟨v, found⟩ : ∃ v,
      sequences.find? (·.isPrefixOf (bytes.drop (Nat.find some_place))) = some v := by
    refine Option.ne_none_iff_exists'.mp fun none_there => ?_
    obtain ⟨v, member, stands⟩ := Nat.find_spec some_place
    exact find?_isPrefixOf_eq_none.mp none_there v member stands
  exact ⟨_, v, found, fun i before u member stands =>
    Nat.find_min some_place before ⟨u, member, stands⟩⟩

end Lists

namespace LeadTable

/-! ## Building up a table -/

/-- One step in building up a table. -/
inductive Addition where
  | sequence (bytes : Bytes)
  | lead (b : UInt8)

/-- The table with one more sequence or lead. -/
def add (t : LeadTable) : Addition → LeadTable
  | .sequence bytes => t.insert bytes
  | .lead b => t.insertLead b

/-- What is added, as a sequence. A lead is one byte. -/
def Addition.bytes : Addition → Bytes
  | sequence bytes => bytes
  | lead b => [b]

/-- The table that is built up, starting with nothing. -/
def ofAdditions (additions : List Addition) : LeadTable := additions.foldl add empty

/-- The sequences that come together, in their order and without the empty ones. -/
def listed (additions : List Addition) : List Bytes :=
  (additions.map Addition.bytes).filter (!·.isEmpty)

/-- The table answers for the list: whatever is asked of the sequences of a lead, the first
answer is the same. -/
def Holds (t : LeadTable) (sequences : List Bytes) : Prop :=
  ∀ (lead : UInt8) (p : Bytes → Bool),
    (spelled lead (t.group lead)).find? p = sequences.find? fun w => w.head? == some lead && p w

variable {t : LeadTable} {sequences : List Bytes} {bytes w : Bytes} {b : UInt8} {c : Cursor}

theorem holds_empty : empty.Holds [] := fun _ _ => rfl

theorem spelled_insert (t : LeadTable) (b : UInt8) (rest : Bytes) (lead : UInt8) :
    spelled lead ((t.insert (b :: rest)).group lead) =
      spelled lead (t.group lead) ++ (if lead = b then [b :: rest] else []) := by
  simp only [insert, group_setGroup]
  by_cases same : lead = b
  · subst same
    simp [spelled_extended]
  · simp [same]

theorem spelled_insertLead (t : LeadTable) (b lead : UInt8) :
    spelled lead ((t.insertLead b).group lead) =
        spelled lead (t.group lead) ++ (if lead = b then [[b]] else []) ∨
      (lead = b ∧ spelled lead (t.group lead) = [[b]] ∧
        spelled lead ((t.insertLead b).group lead) = [[b]]) := by
  unfold insertLead
  by_cases same : lead = b
  · subst same
    cases group : t.group lead with
    | none => simp [group_setGroup, spelled]
    | some others => cases others <;> simp [group_setGroup, spelled, group]
  · cases group : t.group b with
    | none => simp [group_setGroup, same]
    | some others => cases others <;> simp [group_setGroup, same]

/-- A list with one more sequence, asked for those of a lead. -/
theorem find?_concat_lead (sequences : List Bytes) (rest : Bytes) (b lead : UInt8)
    (p : Bytes → Bool) :
    ((sequences ++ [b :: rest]).find? fun w => w.head? == some lead && p w) =
      (sequences.find? fun w => w.head? == some lead && p w).or
        ((if lead = b then [b :: rest] else []).find? p) := by
  rw [List.find?_append]
  congr 1
  by_cases same : lead = b
  · simp [same, List.find?_cons]
  · simp [same, Ne.symm same]

theorem Holds.insert (holds : t.Holds sequences) (b : UInt8) (rest : Bytes) :
    (t.insert (b :: rest)).Holds (sequences ++ [b :: rest]) := by
  intro lead p
  rw [find?_concat_lead, ← holds lead p, ← List.find?_append, spelled_insert]

theorem Holds.insertLead (holds : t.Holds sequences) (b : UInt8) :
    (t.insertLead b).Holds (sequences ++ [[b]]) := by
  intro lead p
  rw [find?_concat_lead, ← holds lead p]
  obtain grown | ⟨rfl, alone, still⟩ := spelled_insertLead t b lead
  · rw [grown, List.find?_append]
  -- The lead is all there was, so it is again the first that answers.
  · rw [alone, still, if_pos rfl, Option.or_self]

theorem holds_foldl_add (holds : t.Holds sequences) (additions : List Addition) :
    (additions.foldl add t).Holds (sequences ++ listed additions) := by
  -- What has been added so far stands in front of all that is still to come.
  induction additions generalizing t sequences with
  | nil => simpa [listed] using holds
  | cons addition additions ih =>
    have first (w : Bytes) (same : addition.bytes = w) (nonempty : w ≠ []) :
        sequences ++ listed (addition :: additions) = sequences ++ [w] ++ listed additions := by
      simp [listed, same, nonempty]
    cases addition with
    | lead b =>
      rw [first [b] rfl (List.cons_ne_nil _ _)]
      exact ih (holds.insertLead b)
    | sequence w =>
      cases w with
      | nil =>
        have none : listed (.sequence [] :: additions) = listed additions := by
          simp [listed, Addition.bytes]
        exact none ▸ ih holds
      | cons b rest =>
        rw [first (b :: rest) rfl (List.cons_ne_nil _ _)]
        exact ih (holds.insert b rest)

/-- A table answers for what it was built up from. -/
theorem holds_ofAdditions (additions : List Addition) :
    (ofAdditions additions).Holds (listed additions) :=
  holds_foldl_add holds_empty additions

theorem ne_nil_of_mem_listed {additions : List Addition} (member : w ∈ listed additions) :
    w ≠ [] := by
  simpa using (List.mem_filter.mp member).2

/-! ## Asking a table -/

/-- The sequences of a table at the front of some bytes, asked for one of some length. -/
theorem Holds.find?_matchLengths (holds : t.Holds sequences) (nonempty : ∀ w ∈ sequences, w ≠ [])
    (bytes : Bytes) (q : Nat → Bool) :
    (t.matchLengths bytes).find? q =
      (sequences.find? fun w => w.isPrefixOf bytes && q w.length).map List.length := by
  cases bytes with
  | nil =>
    have absent : (sequences.find? fun w => w.isPrefixOf [] && q w.length) = none := by
      simp only [List.find?_eq_none]
      intro w member
      simp [nonempty w member]
    rw [absent]
    rfl
  | cons b rest =>
    rw [matchLengths, List.find?_map, List.find?_filter, holds b]
    congr 1
    -- A sequence at the front begins with the first byte.
    refine List.find?_congr fun w member => ?_
    obtain ⟨first, others, rfl⟩ := List.exists_cons_of_ne_nil (nonempty w member)
    rw [Bool.eq_iff_iff]
    by_cases same : first = b <;> simp [same]

theorem Holds.first_eq (holds : t.Holds sequences) (nonempty : ∀ w ∈ sequences, w ≠ [])
    (bytes : Bytes) :
    t.first bytes = (sequences.find? (·.isPrefixOf bytes)).map List.length := by
  have found := holds.find?_matchLengths nonempty bytes fun _ => true
  simp only [Bool.and_true] at found
  rw [← found, first]
  cases t.matchLengths bytes <;> rfl

theorem Holds.first_eq_none (holds : t.Holds sequences) (nonempty : ∀ w ∈ sequences, w ≠ []) :
    t.first bytes = none ↔ ∀ w ∈ sequences, ¬ w <+: bytes := by
  rw [holds.first_eq nonempty, Option.map_eq_none_iff, find?_isPrefixOf_eq_none]

theorem Holds.hasLead_iff (holds : t.Holds sequences) :
    t.hasLead b = true ↔ ∃ w ∈ sequences, w.head? = some b := by
  have asked := holds b fun _ => true
  have grouped : (spelled b (t.group b)).find? (fun _ => true) ≠ none ↔ t.hasLead b = true := by
    rw [hasLead]
    cases t.group b with
    | none => simp [spelled]
    | some group => cases group <;> simp [spelled]
  rw [← grouped, asked]
  simp [List.find?_eq_none]

end LeadTable

/-! ## Searching -/

namespace Scan

variable {t : LeadTable} {bytes : Bytes} {place n : Nat}

/-- The first place at which the table has a sequence. -/
theorem entryIndex_of_first (before : ∀ i < place, t.first (bytes.drop i) = none)
    (there : t.first (bytes.drop place) = some n) :
    entryIndex t bytes = some place ∧ entryEnd t bytes = some (place + n) := by
  -- A search drops one byte after the other, and what is left has the place one byte nearer.
  induction place generalizing bytes with
  | zero =>
    cases bytes with
    | nil => cases there
    | cons b rest =>
      have here : t.first (b :: rest) = some n := there
      simp [entryIndex, entryEnd, here]
  | succ place ih =>
    cases bytes with
    | nil => cases there
    | cons b rest =>
      have here : t.first (b :: rest) = none := before 0 (Nat.succ_pos place)
      have before' (i : Nat) (less : i < place) : t.first (rest.drop i) = none :=
        before (i + 1) (Nat.succ_lt_succ less)
      obtain ⟨index, ends⟩ := ih before' there
      refine ⟨?_, ?_⟩
      · simp [entryIndex, here, index]
      · simp [entryEnd, here, ends, Nat.add_right_comm]

theorem entryIndex_of_none (nowhere : ∀ i, t.first (bytes.drop i) = none) :
    entryIndex t bytes = none ∧ entryEnd t bytes = none := by
  induction bytes with
  | nil => exact ⟨rfl, rfl⟩
  | cons b rest ih =>
    have here : t.first (b :: rest) = none := nowhere 0
    obtain ⟨index, ends⟩ := ih fun i => nowhere (i + 1)
    exact ⟨by simp [entryIndex, here, index], by simp [entryEnd, here, ends]⟩

end Scan

namespace LeadTable

variable {t : LeadTable} {sequences : List Bytes} {bytes w : Bytes} {place : Nat}

theorem Holds.entry_eq (holds : t.Holds sequences) (nonempty : ∀ w ∈ sequences, w ≠ [])
    (bytes : Bytes) :
    Scan.entry t bytes = (sequences.find? (·.isPrefixOf bytes)).map List.length := by
  rw [Scan.entry, holds.first_eq nonempty]
  cases found : sequences.find? (·.isPrefixOf bytes) with
  | none => rfl
  | some w =>
    have some_byte := List.length_pos_iff.mpr (nonempty w (List.mem_of_find?_eq_some found))
    exact Scan.nonzero_eq_some.mpr ⟨rfl, some_byte⟩

theorem Holds.keywordEntry_eq (holds : t.Holds sequences) (nonempty : ∀ w ∈ sequences, w ≠ [])
    (bytes : Bytes) :
    Scan.keywordEntry t bytes =
      (sequences.find? fun w =>
        w.isPrefixOf bytes && !Scan.beginsWithIdentifier (bytes.drop w.length)).map
          List.length := by
  rw [Scan.keywordEntry, holds.find?_matchLengths nonempty]
  cases found : sequences.find? fun w =>
      w.isPrefixOf bytes && !Scan.beginsWithIdentifier (bytes.drop w.length) with
  | none => rfl
  | some w =>
    have some_byte := List.length_pos_iff.mpr (nonempty w (List.mem_of_find?_eq_some found))
    exact Scan.nonzero_eq_some.mpr ⟨rfl, some_byte⟩

/-- A search ends at the first place at which one of the sequences stands. -/
theorem Holds.search_of_standsFirst (holds : t.Holds sequences)
    (nonempty : ∀ w ∈ sequences, w ≠ []) (first : StandsFirst sequences bytes place w) :
    Scan.throughEntry t bytes = some (place + w.length) ∧
      Scan.beforeEntry t bytes = Scan.nonzero place := by
  have before (i : Nat) (less : i < place) : t.first (bytes.drop i) = none :=
    (holds.first_eq_none nonempty).mpr (first.2 i less)
  have there : t.first (bytes.drop place) = some w.length := by
    rw [holds.first_eq nonempty, first.1, Option.map_some]
  obtain ⟨index, ends⟩ := Scan.entryIndex_of_first before there
  have some_byte := List.length_pos_iff.mpr (nonempty w first.mem)
  refine ⟨?_, ?_⟩
  · rw [Scan.throughEntry, ends]
    exact Scan.nonzero_eq_some.mpr ⟨rfl, Nat.add_pos_right place some_byte⟩
  · rw [Scan.beforeEntry, index]
    rfl

theorem Holds.search_of_none (holds : t.Holds sequences) (nonempty : ∀ w ∈ sequences, w ≠ [])
    (nowhere : ∀ i, ∀ w ∈ sequences, ¬ w <+: bytes.drop i) :
    Scan.throughEntry t bytes = none ∧ Scan.beforeEntry t bytes = none := by
  obtain ⟨index, ends⟩ := Scan.entryIndex_of_none fun i =>
    (holds.first_eq_none nonempty).mpr (nowhere i)
  exact ⟨by rw [Scan.throughEntry, ends]; rfl, by rw [Scan.beforeEntry, index]; rfl⟩

/-- The way through a sequence ends nowhere only if none stands anywhere. -/
theorem Holds.throughEntry_eq_none_iff (holds : t.Holds sequences)
    (nonempty : ∀ w ∈ sequences, w ≠ []) (bytes : Bytes) :
    Scan.throughEntry t bytes = none ↔ ∀ i, ∀ w ∈ sequences, ¬ w <+: bytes.drop i := by
  constructor
  · intro failed i w member stands
    obtain ⟨place, v, first⟩ := exists_standsFirst member stands
    rw [(holds.search_of_standsFirst nonempty first).1] at failed
    cases failed
  · exact fun nowhere => (holds.search_of_none nonempty nowhere).1

/-! ## Tables and lists agree -/

section Apply

variable {c : Cursor}

theorem apply_of_refused {p : Primitive} (counts : p.refusal = .count none)
    (absent : p.scan c.rest = none) : p.apply c = (.count none, c) :=
  counts ▸ Primitive.apply_of_none absent

theorem Holds.apply_entry (holds : t.Holds sequences) (nonempty : ∀ w ∈ sequences, w ≠ [])
    (c : Cursor) :
    (Primitive.entry t).apply c =
      match sequences.find? (·.isPrefixOf c.rest) with
      | some w => (.count (some w.length), c.advance w.length)
      | none => (.count none, c) := by
  have scans := holds.entry_eq nonempty c.rest
  split
  · rename_i found
    exact Primitive.apply_of_some (by rw [Primitive.scan, scans, found]; rfl)
  · rename_i found
    exact apply_of_refused rfl (by rw [Primitive.scan, scans, found]; rfl)

theorem Holds.apply_keywordEntry (holds : t.Holds sequences)
    (nonempty : ∀ w ∈ sequences, w ≠ []) (c : Cursor) :
    (Primitive.keywordEntry t).apply c =
      match sequences.find? fun w =>
        w.isPrefixOf c.rest && !Scan.beginsWithIdentifier (c.rest.drop w.length) with
      | some w => (.count (some w.length), c.advance w.length)
      | none => (.count none, c) := by
  have scans := holds.keywordEntry_eq nonempty c.rest
  split
  · rename_i found
    exact Primitive.apply_of_some (by rw [Primitive.scan, scans, found]; rfl)
  · rename_i found
    exact apply_of_refused rfl (by rw [Primitive.scan, scans, found]; rfl)

theorem Holds.apply_of_standsFirst (holds : t.Holds sequences)
    (nonempty : ∀ w ∈ sequences, w ≠ []) (first : StandsFirst sequences c.rest place w) :
    (Primitive.throughEntry t).apply c =
        (.count (some (place + w.length)), c.advance (place + w.length)) ∧
      (Primitive.beforeEntry t).apply c =
        if place = 0 then (.count none, c) else (.count (some place), c.advance place) := by
  obtain ⟨through, before⟩ := holds.search_of_standsFirst nonempty first
  refine ⟨Primitive.apply_of_some through, ?_⟩
  cases place with
  | zero => exact apply_of_refused rfl before
  | succ place => exact Primitive.apply_of_some before

theorem Holds.apply_of_nowhere (holds : t.Holds sequences) (nonempty : ∀ w ∈ sequences, w ≠ [])
    (nowhere : ∀ i, ∀ w ∈ sequences, ¬ w <+: c.rest.drop i) :
    (Primitive.throughEntry t).apply c = (.count none, c) ∧
      (Primitive.beforeEntry t).apply c = (.count none, c) := by
  obtain ⟨through, before⟩ := holds.search_of_none nonempty nowhere
  exact ⟨apply_of_refused rfl through, apply_of_refused rfl before⟩

/-- The way through a sequence fails only where none stands. -/
theorem Holds.apply_throughEntry_eq_none_iff (holds : t.Holds sequences)
    (nonempty : ∀ w ∈ sequences, w ≠ []) :
    (Primitive.throughEntry t).apply c = (.count none, c) ↔
      ∀ i, ∀ w ∈ sequences, ¬ w <+: c.rest.drop i := by
  rw [← holds.throughEntry_eq_none_iff nonempty c.rest]
  constructor
  · intro failed
    cases scans : Scan.throughEntry t c.rest with
    | none => rfl
    | some n =>
      have taken := Primitive.apply_of_some (p := .throughEntry t) scans
      cases (Prod.mk.inj (taken.symm.trans failed)).1
  · exact fun absent => apply_of_refused rfl absent

/-- The way up to a sequence fails there, and where one stands at the cursor. -/
theorem Holds.apply_beforeEntry_eq_none_iff (holds : t.Holds sequences)
    (nonempty : ∀ w ∈ sequences, w ≠ []) :
    (Primitive.beforeEntry t).apply c = (.count none, c) ↔
      (∀ i, ∀ w ∈ sequences, ¬ w <+: c.rest.drop i) ∨ ∃ w ∈ sequences, w <+: c.rest := by
  constructor
  · intro failed
    by_cases somewhere : ∃ place w, StandsFirst sequences c.rest place w
    case neg => exact .inl fun i w member stands => somewhere (exists_standsFirst member stands)
    obtain ⟨place, w, first⟩ := somewhere
    rw [(holds.apply_of_standsFirst nonempty first).2] at failed
    cases place with
    | zero => exact .inr ⟨w, first.mem, first.isPrefix⟩
    | succ place => simp at failed
  · rintro (nowhere | ⟨w, member, stands⟩)
    · exact (holds.apply_of_nowhere nonempty nowhere).2
    · have stands' : w <+: c.rest.drop 0 := stands
      obtain ⟨place, v, first⟩ := exists_standsFirst member stands'
      obtain rfl : place = 0 := Nat.eq_zero_of_not_pos fun positive =>
        first.2 0 positive w member stands
      exact (holds.apply_of_standsFirst nonempty first).2

end Apply

/-- The scans for a table that was built up do what a look through the list does. At the cursor,
the first sequence of the list that is there is read, or the first that no byte of an identifier
follows. A search leads through the first sequence that stands at the first place where any does,
or up to that place, which must not be the one where the cursor is. Each fails in no other case.
The leads of the table are the first bytes of the list. -/
theorem apply_ofAdditions (additions : List Addition) (c : Cursor) :
    let t := ofAdditions additions
    let sequences := listed additions
    ((Primitive.entry t).apply c =
      match sequences.find? (·.isPrefixOf c.rest) with
      | some w => (.count (some w.length), c.advance w.length)
      | none => (.count none, c)) ∧
    ((Primitive.keywordEntry t).apply c =
      match sequences.find? fun w =>
        w.isPrefixOf c.rest && !Scan.beginsWithIdentifier (c.rest.drop w.length) with
      | some w => (.count (some w.length), c.advance w.length)
      | none => (.count none, c)) ∧
    (∀ place w, StandsFirst sequences c.rest place w →
      (Primitive.throughEntry t).apply c =
          (.count (some (place + w.length)), c.advance (place + w.length)) ∧
        (Primitive.beforeEntry t).apply c =
          if place = 0 then (.count none, c) else (.count (some place), c.advance place)) ∧
    ((Primitive.throughEntry t).apply c = (.count none, c) ↔
      ∀ i, ∀ w ∈ sequences, ¬ w <+: c.rest.drop i) ∧
    ((Primitive.beforeEntry t).apply c = (.count none, c) ↔
      (∀ i, ∀ w ∈ sequences, ¬ w <+: c.rest.drop i) ∨ ∃ w ∈ sequences, w <+: c.rest) ∧
    ∀ b, t.hasLead b = true ↔ ∃ w ∈ sequences, w.head? = some b := by
  intro t sequences
  have holds : t.Holds sequences := holds_ofAdditions additions
  have nonempty (w : Bytes) (member : w ∈ sequences) : w ≠ [] := ne_nil_of_mem_listed member
  exact ⟨holds.apply_entry nonempty c, holds.apply_keywordEntry nonempty c,
    fun place w first => holds.apply_of_standsFirst nonempty first,
    holds.apply_throughEntry_eq_none_iff nonempty, holds.apply_beforeEntry_eq_none_iff nonempty,
    fun b => holds.hasLead_iff⟩

/-- A lead that comes before and behind longer sequences with the same first byte. -/
example :
    let t := ofAdditions [.lead 0x61, .sequence (Bytes.ofText "ab"), .lead 0x61,
      .sequence (Bytes.ofText "b")]
    (Scan.entry t (Bytes.ofText "ab"), Scan.keywordEntry t (Bytes.ofText "ab"),
      Scan.throughEntry t (Bytes.ofText "xab"), Scan.beforeEntry t (Bytes.ofText "xab")) =
        (some 1, some 2, some 2, some 1) := by
  decide

end LeadTable

end Octets
