import Mathlib.Order.WellFounded
import Octets.Proofs.LeadTable

/-!
# Runs over a table

A run over a table takes the first sequence at the front of some bytes, then the first one at
the front of what is left, and so on until none is there. Nothing else bounds the rounds. A
table that answers somewhere with the empty sequence would be asked at the same place for ever,
and it is the only kind that does not come to an end.

However a table has come about, every sequence stands in the group of its first byte, so none
is empty and each round takes some bytes.

## Main definitions

* `LeadTable.IsBuilt` — the tables that come of the operations on tables
* `LeadTable.IsGrouped`, `LeadTable.Spells` — tables whose groups hold what they should, and
  the sequences of a table
* `LeadTable.Round`, `LeadTable.Rounds` — one round, and the sequences of several
* `LeadTable.Exhausts` — rounds up to where there is no further one

## Main results

* `LeadTable.wellFounded_round_iff` — rounds come to an end if none of them takes nothing
* `LeadTable.IsBuilt.isGrouped` — no operation puts a sequence where it does not belong
* `LeadTable.IsBuilt.apply_entries` — what a run takes
-/

namespace Octets.LeadTable

variable {t : LeadTable} {bytes w left : Bytes} {words : List Bytes} {c : Cursor}

/-! ## Built tables -/

/-- The tables that come of the operations on tables, in any order. -/
inductive IsBuilt : LeadTable → Prop
  | empty : IsBuilt empty
  | ofSequences (sequences : List Bytes) : IsBuilt (ofSequences sequences)
  | ofClass (bytes : Bytes) : IsBuilt (ofClass bytes)
  | insert {t : LeadTable} (built : IsBuilt t) (sequence : Bytes) : IsBuilt (t.insert sequence)
  | insertLead {t : LeadTable} (built : IsBuilt t) (lead : UInt8) : IsBuilt (t.insertLead lead)
  | complement {t : LeadTable} (built : IsBuilt t) : IsBuilt t.complement

/-- Each group holds nothing but sequences that begin with its lead. -/
def IsGrouped (t : LeadTable) : Prop :=
  ∀ lead group, t.group lead = some group → ∀ w ∈ group, w.head? = some lead

/-- A sequence of the table. A lead that stands alone is one. -/
def Spells (t : LeadTable) (w : Bytes) : Prop := ∃ lead, w ∈ spelled lead (t.group lead)

/-- The lead that an empty group stands for begins with itself. -/
theorem isGrouped_iff :
    t.IsGrouped ↔ ∀ lead, ∀ w ∈ spelled lead (t.group lead), w.head? = some lead := by
  constructor
  · intro grouped lead w member
    cases group : t.group lead with
    | none => simp [group, spelled] at member
    | some others =>
      cases others with
      | nil =>
        have alone : w = [lead] := by simpa [group, spelled] using member
        rw [alone]
        rfl
      | cons first others => exact grouped lead _ group w (by simpa [group, spelled] using member)
  · intro grouped lead group found w member
    cases group with
    | nil => cases member
    | cons first others => exact grouped lead w (by rwa [found])

/-- What an operation adds to the group of a lead begins with it. -/
theorem head?_of_mem_added {b lead : UInt8} {rest : Bytes}
    (member : w ∈ if lead = b then [b :: rest] else []) : w.head? = some lead := by
  split_ifs at member with same
  · rw [List.mem_singleton.mp member, same]
    rfl
  · cases member

theorem isGrouped_empty : empty.IsGrouped := fun _ _ absent => nomatch absent

theorem IsGrouped.insert (grouped : t.IsGrouped) (sequence : Bytes) :
    (t.insert sequence).IsGrouped := by
  cases sequence with
  | nil => exact grouped
  | cons b rest =>
    rw [isGrouped_iff] at grouped ⊢
    intro lead w member
    rw [spelled_insert, List.mem_append] at member
    exact member.elim (grouped lead w) head?_of_mem_added

theorem IsGrouped.insertLead (grouped : t.IsGrouped) (b : UInt8) :
    (t.insertLead b).IsGrouped := by
  rw [isGrouped_iff] at grouped ⊢
  intro lead w member
  obtain grown | ⟨rfl, before, still⟩ := spelled_insertLead t b lead
  · rw [grown, List.mem_append] at member
    exact member.elim (grouped lead w) head?_of_mem_added
  -- The lead was all there was, and nothing has come to it.
  · rw [still, ← before] at member
    exact grouped lead w member

theorem isGrouped_ofSequences (sequences : List Bytes) : (ofSequences sequences).IsGrouped :=
  List.foldlRecOn sequences LeadTable.insert isGrouped_empty fun _ grouped w _ => grouped.insert w

theorem isGrouped_ofClass (bytes : Bytes) : (ofClass bytes).IsGrouped :=
  List.foldlRecOn bytes LeadTable.insertLead isGrouped_empty fun _ grouped b _ =>
    grouped.insertLead b

/-- No operation puts a sequence where it does not belong. -/
theorem IsBuilt.isGrouped (built : t.IsBuilt) : t.IsGrouped := by
  induction built with
  | empty => exact isGrouped_empty
  | ofSequences sequences => exact isGrouped_ofSequences sequences
  | ofClass bytes => exact isGrouped_ofClass bytes
  | insert _ sequence grouped => exact grouped.insert sequence
  | insertLead _ lead grouped => exact grouped.insertLead lead
  -- A complement is a class of its own and keeps no sequence.
  | complement => exact isGrouped_ofClass _

/-! ## The sequence at the front -/

/-- The first sequence at the front of some bytes. -/
def front? (t : LeadTable) : Bytes → Option Bytes
  | [] => none
  | b :: rest => (spelled b (t.group b)).find? (·.isPrefixOf (b :: rest))

theorem first_eq_map_front? (t : LeadTable) (bytes : Bytes) :
    t.first bytes = (t.front? bytes).map List.length := by
  cases bytes with
  | nil => rfl
  | cons b rest => rw [first, matchLengths, List.head?_map, List.head?_filter, front?]

theorem spells_of_front? (found : t.front? bytes = some w) : t.Spells w ∧ w <+: bytes := by
  cases bytes with
  | nil => cases found
  | cons b rest =>
    rw [front?] at found
    exact ⟨⟨b, List.mem_of_find?_eq_some found⟩, List.isPrefixOf_iff_prefix.mp <|
      List.find?_some (p := (List.isPrefixOf · (b :: rest))) found⟩

theorem IsGrouped.ne_nil_of_spells (grouped : t.IsGrouped) (spells : t.Spells w) : w ≠ [] := by
  obtain ⟨lead, member⟩ := spells
  rintro rfl
  cases isGrouped_iff.mp grouped lead [] member

/-- A sequence at the front is in the group that is looked through. -/
theorem IsGrouped.front?_eq_none_iff (grouped : t.IsGrouped) :
    t.front? bytes = none ↔ ∀ w, t.Spells w → ¬ w <+: bytes := by
  constructor
  · rintro absent w spells ⟨behind, rfl⟩
    obtain ⟨lead, member⟩ := spells
    have head := isGrouped_iff.mp grouped lead w member
    -- The lead of the group is the first byte, by which the group is chosen.
    cases w with
    | nil => cases head
    | cons b others =>
      cases head
      rw [List.cons_append, front?, List.find?_eq_none] at absent
      exact absent _ member (List.isPrefixOf_iff_prefix.mpr (List.prefix_append _ behind))
  · intro nowhere
    cases found : t.front? bytes with
    | none => rfl
    | some w => exact absurd (spells_of_front? found).2 (nowhere w (spells_of_front? found).1)

/-! ## Rounds -/

/-- One round. From `before`, the first sequence at the front is taken, whatever its length. -/
def Round (t : LeadTable) (after before : Bytes) : Prop :=
  ∃ n, t.first before = some n ∧ after = before.drop n

/-- Rounds one after the other, with the sequences that they take and what they leave. -/
inductive Rounds (t : LeadTable) : Bytes → List Bytes → Bytes → Prop
  | none {bytes : Bytes} : Rounds t bytes [] bytes
  | round {bytes w left : Bytes} {words : List Bytes} (found : t.front? bytes = some w)
      (others : Rounds t (bytes.drop w.length) words left) : Rounds t bytes (w :: words) left

/-- Rounds up to where no sequence of the table is at the front. -/
def Exhausts (t : LeadTable) (bytes : Bytes) (words : List Bytes) (left : Bytes) : Prop :=
  t.Rounds bytes words left ∧ ∀ w, t.Spells w → ¬ w <+: left

theorem round_of_front? (found : t.front? bytes = some w) :
    t.Round (bytes.drop w.length) bytes :=
  ⟨w.length, by rw [first_eq_map_front?, found, Option.map_some], rfl⟩

/-- Rounds come to an end, wherever they begin, if and only if none of them takes nothing. -/
theorem wellFounded_round_iff : WellFounded t.Round ↔ ∀ bytes, t.first bytes ≠ some 0 := by
  constructor
  -- A round that takes nothing leads back to where it began.
  · intro ends bytes nothing
    exact ends.irrefl.irrefl bytes ⟨0, nothing, rfl⟩
  · intro takes
    refine Subrelation.wf (fun {after before} round => ?_) (measure List.length).wf
    obtain ⟨n, found, rfl⟩ := round
    have positive : 0 < n := Nat.pos_of_ne_zero fun nothing => takes before (nothing ▸ found)
    have inside : n ≤ before.length := le_length_of_mem_matchLengths (List.mem_of_head? found)
    show (before.drop n).length < before.length
    rw [List.length_drop]
    omega

theorem IsGrouped.wellFounded_round (grouped : t.IsGrouped) : WellFounded t.Round := by
  refine wellFounded_round_iff.mpr fun bytes nothing => ?_
  rw [first_eq_map_front?, Option.map_eq_some_iff] at nothing
  obtain ⟨w, found, empty⟩ := nothing
  exact grouped.ne_nil_of_spells (spells_of_front? found).1 (List.length_eq_zero_iff.mp empty)

/-- What has been taken and what is left are the bytes. No round goes beyond their end. -/
theorem Rounds.eq_append (rounds : t.Rounds bytes words left) : bytes = words.flatten ++ left := by
  induction rounds with
  | none => rfl
  | round found _ ih =>
    obtain ⟨behind, rfl⟩ := (spells_of_front? found).2
    rw [List.drop_left] at ih
    rw [List.flatten_cons, List.append_assoc, ← ih]

/-- There is an end to the rounds from anywhere. -/
theorem IsGrouped.exists_exhausts (grouped : t.IsGrouped) (bytes : Bytes) :
    ∃ words left, t.Exhausts bytes words left := by
  induction bytes using grouped.wellFounded_round.induction with
  | _ bytes ih =>
    cases found : t.front? bytes with
    | none => exact ⟨[], bytes, .none, grouped.front?_eq_none_iff.mp found⟩
    | some w =>
      obtain ⟨words, left, rounds, ends⟩ := ih _ (round_of_front? found)
      exact ⟨w :: words, left, .round found rounds, ends⟩

/-! ## What a run takes -/

theorem entriesLength_of_front? (found : t.front? bytes = some w) (nonempty : w ≠ []) :
    Scan.entriesLength t bytes = w.length + Scan.entriesLength t (bytes.drop w.length) := by
  have first : t.first bytes = some w.length := by
    rw [first_eq_map_front?, found, Option.map_some]
  obtain ⟨b, rest, rfl⟩ := List.exists_cons_of_ne_nil (l := bytes) (by rintro rfl; cases found)
  obtain ⟨n, length⟩ := Nat.exists_eq_succ_of_ne_zero (List.length_pos_iff.mpr nonempty).ne'
  rw [length] at first ⊢
  rw [Scan.entriesLength, first, List.drop_succ_cons, Nat.add_comm]

theorem entriesLength_of_none (absent : t.front? bytes = none) :
    Scan.entriesLength t bytes = 0 := by
  have first : t.first bytes = none := by rw [first_eq_map_front?, absent, Option.map_none]
  cases bytes with
  | nil => rw [Scan.entriesLength]
  | cons b rest => rw [Scan.entriesLength, first]

theorem IsGrouped.entriesLength_eq (grouped : t.IsGrouped)
    (exhausts : t.Exhausts bytes words left) :
    Scan.entriesLength t bytes = words.flatten.length := by
  obtain ⟨rounds, ends⟩ := exhausts
  -- The scan gives up where a round would take nothing, and that does not happen.
  induction rounds with
  | none => exact entriesLength_of_none (grouped.front?_eq_none_iff.mpr ends)
  | round found _ ih =>
    have nonempty := grouped.ne_nil_of_spells (spells_of_front? found).1
    rw [entriesLength_of_front? found nonempty, ih ends, List.flatten_cons, List.length_append]

/-- A run takes nothing only if there is no round at all. -/
theorem IsGrouped.flatten_eq_nil_iff (grouped : t.IsGrouped)
    (rounds : t.Rounds bytes words left) : words.flatten = [] ↔ words = [] := by
  cases rounds with
  | none => simp
  | round found _ => simp [grouped.ne_nil_of_spells (spells_of_front? found).1]

theorem IsGrouped.apply_of_exhausts (grouped : t.IsGrouped)
    (exhausts : t.Exhausts c.rest words left) :
    (Primitive.entries t).apply c =
      if words = [] then (.count none, c)
      else (.count (some words.flatten.length), c.advance words.flatten.length) := by
  have scans : (Primitive.entries t).scan c.rest = Scan.nonzero words.flatten.length :=
    congrArg Scan.nonzero (grouped.entriesLength_eq exhausts)
  by_cases none : words = []
  · subst none
    exact apply_of_refused rfl scans
  · have positive := List.length_pos_iff.mpr (mt (grouped.flatten_eq_nil_iff exhausts.1).mp none)
    rw [if_neg none]
    exact Primitive.apply_of_some (scans.trans (Scan.nonzero_eq_some.mpr ⟨rfl, positive⟩))

theorem IsGrouped.apply_eq_none_iff (grouped : t.IsGrouped) :
    (Primitive.entries t).apply c = (.count none, c) ↔ ∀ w, t.Spells w → ¬ w <+: c.rest := by
  constructor
  · intro failed
    obtain ⟨words, left, exhausts⟩ := grouped.exists_exhausts c.rest
    rw [grouped.apply_of_exhausts exhausts] at failed
    split_ifs at failed with none
    · subst none
      rw [show c.rest = left from exhausts.1.eq_append]
      exact exhausts.2
    · cases (Prod.mk.inj failed).1
  · exact fun nowhere => grouped.apply_of_exhausts ⟨.none, nowhere⟩

/-- A table that was built up has nothing in its groups but sequences that begin with the lead,
so rounds come to an end wherever they begin, and a run over it is one of them after the other.
The sequences that they take lie one behind the other from the cursor on. A run leads behind
the last of them, where no sequence of the table stands any more, and it fails only if none
stands at the cursor. -/
theorem IsBuilt.apply_entries (built : t.IsBuilt) (c : Cursor) :
    t.IsGrouped ∧ WellFounded t.Round ∧
    (∀ words left, t.Rounds c.rest words left → c.rest = words.flatten ++ left) ∧
    (∃ words left, t.Exhausts c.rest words left) ∧
    (∀ words left, t.Exhausts c.rest words left →
      (c.advance words.flatten.length).rest = left ∧
      (Primitive.entries t).apply c =
        if words = [] then (.count none, c)
        else (.count (some words.flatten.length), c.advance words.flatten.length)) ∧
    ((Primitive.entries t).apply c = (.count none, c) ↔
      ∀ w, t.Spells w → ¬ w <+: c.rest) := by
  have grouped := built.isGrouped
  refine ⟨grouped, grouped.wellFounded_round, fun _ _ rounds => rounds.eq_append,
    grouped.exists_exhausts c.rest, fun words left exhausts => ⟨?_, ?_⟩,
    grouped.apply_eq_none_iff⟩
  · rw [Cursor.rest_advance, exhausts.1.eq_append, List.drop_left]
  · exact grouped.apply_of_exhausts exhausts

/-- Digits and hyphens alternate in one run. The letter behind them ends it. -/
theorem apply_entries_digitsAndHyphens :
    let digits := Bytes.ofText "0123456789"
    let t := (ofClass digits).insert (Bytes.ofText "-")
    let c := Cursor.within (Bytes.ofText "x12-34-x") 1 8
    let words := ["1", "2", "-", "3", "4", "-"].map Bytes.ofText
    t.IsBuilt ∧ t.Exhausts c.rest words (Bytes.ofText "x") ∧
      (c.advance 6).rest = Bytes.ofText "x" ∧
      (Primitive.entries t).apply c = (.count (some 6), c.advance 6) := by
  intro digits t c words
  have built : t.IsBuilt := (IsBuilt.ofClass digits).insert _
  have rounds : t.Rounds c.rest words (Bytes.ofText "x") := by
    exact .round (by decide) (.round (by decide) (.round (by decide) (.round (by decide)
      (.round (by decide) (.round (by decide) .none)))))
  have exhausts : t.Exhausts c.rest words (Bytes.ofText "x") :=
    ⟨rounds, built.isGrouped.front?_eq_none_iff.mp (by decide)⟩
  obtain ⟨rest, applied⟩ := (IsBuilt.apply_entries built c).2.2.2.2.1 words _ exhausts
  exact ⟨built, exhausts, rest, applied⟩

end Octets.LeadTable
