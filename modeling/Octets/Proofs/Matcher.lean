import Mathlib.Computability.Language
import Mathlib.Order.CompletePartialOrder
import Octets.Matcher
import Octets.Proofs.Cursor.Ahead

/-!
# What matchers take

A step of a matcher is sound for a language if whatever it takes of the unread bytes is a word
of that language, and so is a matcher. One behind the other, steps are sound for the product of
their languages. A search is sound for any bytes and then a word of what is searched for.

## Main definitions

* `LeadTable.language` — the sequences of a table
* `Step.IsSoundFor`, `Matcher.IsSoundFor` — what is taken is a word of a language

## Main results

* `LeadTable.mem_language_ofClass`, `LeadTable.mem_language_ofSequences` — tables hold what
  they were made of
* `Step.isSoundFor_throughEntry` and its like — for which languages the steps are sound
* `Matcher.isSoundFor_push` — one more step
* `Matcher.matchAt_mem` — what a matcher matches at a position of an input
* `Matcher.matchFront_push_finish` — matching up to the end of the input
-/

namespace Octets

/-! ## Sequences of a table -/

namespace LeadTable

variable {t : LeadTable} {bytes : Bytes} {b : UInt8} {n : Nat}

/-- The sequences of a table. -/
def language (t : LeadTable) : Language UInt8 := {w | ∃ lead, w ∈ spelled lead (t.group lead)}

theorem take_mem_language (found : t.first bytes = some n) : bytes.take n ∈ t.language := by
  obtain ⟨lead, rest, rfl, sequence, grouped, front, rfl⟩ := first_eq_some found
  rw [← List.prefix_iff_eq_take.mp front]
  exact ⟨lead, grouped⟩

theorem group_foldl_insertLead {bytes : Bytes} (alone : t.group b = none ∨ t.group b = some []) :
    (bytes.foldl insertLead t).group b = if b ∈ bytes then some [] else t.group b := by
  induction bytes generalizing t with
  | nil => simp
  | cons lead rest ih =>
    have inserted : (t.insertLead lead).group b = if b = lead then some [] else t.group b := by
      unfold insertLead
      by_cases same : b = lead
      · subst same
        obtain absent | present := alone
        · simp [absent, group_setGroup]
        · simp [present]
      · split <;> simp [group_setGroup, same]
    rw [List.foldl_cons, ih]
    · rw [inserted]
      by_cases same : b = lead <;> simp [same]
    · rw [inserted]
      split
      · exact .inr rfl
      · exact alone

/-- In a class, every byte stands alone. -/
theorem group_ofClass (bytes : Bytes) (b : UInt8) :
    (ofClass bytes).group b = if b ∈ bytes then some [] else none :=
  group_foldl_insertLead (.inl rfl)

theorem hasLead_ofClass (bytes : Bytes) (b : UInt8) :
    (ofClass bytes).hasLead b = true ↔ b ∈ bytes := by
  rw [hasLead, group_ofClass]
  split <;> simp [*]

theorem mem_language_ofClass {bytes w : Bytes} (member : w ∈ (ofClass bytes).language) :
    ∃ b ∈ bytes, w = [b] := by
  obtain ⟨lead, grouped⟩ := member
  rw [group_ofClass] at grouped
  split at grouped
  · exact ⟨lead, ‹_›, by simpa [spelled] using grouped⟩
  · simp [spelled] at grouped

theorem mem_language_complement {bytes w : Bytes}
    (member : w ∈ (ofClass bytes).complement.language) : ∃ b, b ∉ bytes ∧ w = [b] := by
  obtain ⟨b, outside, rfl⟩ := mem_language_ofClass member
  refine ⟨b, fun inside => ?_, rfl⟩
  have leads := (hasLead_ofClass bytes b).mpr inside
  simp [leads] at outside

theorem mem_language_insert {sequence w : Bytes} (member : w ∈ (t.insert sequence).language) :
    w = sequence ∨ w ∈ t.language := by
  cases sequence with
  | nil => exact .inr member
  | cons lead rest =>
    obtain ⟨first, grouped⟩ := member
    simp only [insert, group_setGroup] at grouped
    split at grouped
    · rename_i same
      subst same
      rw [spelled_extended, List.mem_append, List.mem_singleton] at grouped
      exact grouped.symm.imp_right fun grouped => ⟨first, grouped⟩
    · exact .inr ⟨first, grouped⟩

theorem mem_language_foldl_insert {sequences : List Bytes} {w : Bytes}
    (member : w ∈ (sequences.foldl insert t).language) : w ∈ sequences ∨ w ∈ t.language := by
  induction sequences generalizing t with
  | nil => exact .inr member
  | cons first rest ih =>
    obtain later | earlier := ih member
    · exact .inl (List.mem_cons_of_mem _ later)
    · exact (mem_language_insert earlier).imp_left fun (same : w = first) => by simp [same]

theorem mem_language_ofSequences {sequences : List Bytes} {w : Bytes}
    (member : w ∈ (ofSequences sequences).language) : w ∈ sequences := by
  obtain listed | ⟨lead, grouped⟩ := mem_language_foldl_insert member
  · exact listed
  · simp [spelled] at grouped

end LeadTable

namespace Matcher

/-! ## Steps -/

namespace Step

variable {step : Step} {L : Language UInt8}

/-- What the step takes of the unread bytes is a word of the language. -/
def IsSoundFor (step : Step) (L : Language UInt8) : Prop :=
  ∀ c d : Cursor, c.WellFormed → step.apply c = (true, d) →
    ∃ n, c.IsAhead d n ∧ c.rest.take n ∈ L

theorem apply_eq_accept {scan : Scan} (scans : step.scan? = some scan) (c : Cursor) :
    step.apply c = c.accept scan := by
  cases step <;> simp_all [scan?, apply]

/-- A step that scans is sound for what its scan takes. -/
theorem isSoundFor_of_scan {scan : Scan} (scans : step.scan? = some scan)
    (bounded : scan.IsBounded)
    (takes : ∀ bytes n, scan bytes = some n → bytes.take n ∈ L) : step.IsSoundFor L := by
  intro c d wf applied
  rw [apply_eq_accept scans, Cursor.accept] at applied
  split at applied
  · obtain rfl := (Prod.mk.inj applied).2
    obtain ⟨n, ahead, taken⟩ := Cursor.isAhead_of_read? bounded ‹_›
    exact ⟨n, ahead, takes _ _ taken⟩
  · cases (Prod.mk.inj applied).1

theorem isSoundFor_literal (lit : Bytes) : (literal lit).IsSoundFor {lit} := by
  refine isSoundFor_of_scan rfl (Scan.isBounded_literal lit) fun bytes n taken => ?_
  obtain ⟨front, rfl⟩ := Scan.literal_eq_some.mp taken
  exact (List.prefix_iff_eq_take.mp front).symm

theorem isSoundFor_through (lit : Bytes) : (through lit).IsSoundFor (⊤ * {lit}) := by
  refine isSoundFor_of_scan rfl (Scan.isBounded_through lit) fun bytes n taken => ?_
  obtain ⟨m, found, rfl⟩ := Option.map_eq_some_iff.mp taken
  obtain ⟨_, front⟩ := Scan.before_eq_some found
  refine Language.mem_mul.mpr ⟨bytes.take m, trivial, lit, rfl, ?_⟩
  rw [List.take_add, ← List.prefix_iff_eq_take.mp front]

theorem isSoundFor_entry (t : LeadTable) : (entry t).IsSoundFor t.language := by
  refine isSoundFor_of_scan rfl (Scan.isBounded_entry t) fun bytes n taken => ?_
  obtain ⟨m, found, taken⟩ := Option.bind_eq_some_iff.mp taken
  obtain ⟨rfl, _⟩ := Scan.nonzero_eq_some.mp taken
  exact LeadTable.take_mem_language found

theorem isSoundFor_throughEntry (t : LeadTable) :
    (throughEntry t).IsSoundFor (⊤ * t.language) := by
  refine isSoundFor_of_scan rfl (Scan.isBounded_throughEntry t) fun bytes n taken => ?_
  obtain ⟨m, found, taken⟩ := Option.bind_eq_some_iff.mp taken
  obtain ⟨rfl, _⟩ := Scan.nonzero_eq_some.mp taken
  obtain ⟨front, length, rfl, _, matched⟩ := Scan.entryEnd_eq_some found
  rw [List.take_add]
  exact Language.append_mem_mul trivial (LeadTable.take_mem_language matched)

/-- A step that takes one byte is sound for what its class lets through. -/
theorem isSoundFor_of_byte {cls : UInt8 → Bool} (scans : step.scan? = some (Scan.byte cls))
    (holds : ∀ b, cls b = true → [b] ∈ L) : step.IsSoundFor L := by
  refine isSoundFor_of_scan scans (Scan.isBounded_byte cls) fun bytes n taken => ?_
  obtain ⟨rfl, b, rest, rfl, inside⟩ := Scan.byte_eq_some taken
  exact holds b inside

theorem isSoundFor_remainder : remainder.IsSoundFor ⊤ := by
  intro c d wf applied
  obtain rfl := (Prod.mk.inj applied).2
  exact ⟨_, Cursor.isAhead_jumpToEnd wf, trivial⟩

theorem IsSoundFor.mono {K : Language UInt8} (sound : step.IsSoundFor K) (le : K ≤ L) :
    step.IsSoundFor L := by
  intro c d wf applied
  obtain ⟨n, ahead, taken⟩ := sound c d wf applied
  exact ⟨n, ahead, le taken⟩

end Step

/-! ## Matchers -/

variable {m : Matcher} {K L : Language UInt8} {input : Bytes} {start n : Nat}

/-- What the matcher takes of the unread bytes is a word of the language. -/
def IsSoundFor (m : Matcher) (L : Language UInt8) : Prop :=
  ∀ c d : Cursor, c.WellFormed → applyAll m.entries c = some d →
    ∃ n, c.IsAhead d n ∧ c.rest.take n ∈ L

theorem IsSoundFor.mono (sound : m.IsSoundFor K) (le : K ≤ L) : m.IsSoundFor L := by
  intro c d wf applied
  obtain ⟨n, ahead, taken⟩ := sound c d wf applied
  exact ⟨n, ahead, le taken⟩

theorem isSoundFor_empty : empty.IsSoundFor 1 := by
  intro c d wf applied
  cases applied
  exact ⟨0, .refl c, Language.nil_mem_one⟩

/-- One more step is run where the matcher has led. -/
theorem applyAll_push (m : Matcher) (step : Step) (c : Cursor) :
    applyAll (m.push step).entries c = (applyAll m.entries c).bind fun d =>
      match step.apply d with
      | (true, e) => some e
      | (false, _) => none := by
  rw [push, applyAll_append]
  cases applyAll m.entries c with
  | none => rfl
  | some d =>
    simp only [Option.bind_some, applyAll, Entry.apply, Bool.false_eq_true, if_false]
    rcases step.apply d with ⟨_ | _, e⟩ <;> rfl

theorem isSoundFor_push {step : Step} (sound : m.IsSoundFor K) (sound' : step.IsSoundFor L) :
    (m.push step).IsSoundFor (K * L) := by
  intro c e wf applied
  rw [applyAll_push] at applied
  obtain ⟨d, reached, applied⟩ := Option.bind_eq_some_iff.mp applied
  obtain ⟨n, ahead, taken⟩ := sound c d wf reached
  have stepped : step.apply d = (true, e) := by
    split at applied <;> cases applied
    assumption
  have wf' : d.WellFormed := ahead.2 ▸ wf.advance ahead.1
  obtain ⟨n', ahead', taken'⟩ := sound' d e wf' stepped
  refine ⟨n + n', ahead.trans ahead', ?_⟩
  rw [ahead.2, Cursor.rest_advance] at taken'
  rw [List.take_add]
  exact Language.append_mem_mul taken taken'

/-! ## Matches -/

/-- From a position of the input, a matcher that matches leads some bytes further on. -/
theorem matchAt_eq_some (sound : m.IsSoundFor L) (matched : m.matchAt input start = some n) :
    let c : Cursor := ⟨input, start, start, input.length, none⟩
    start + n ≤ input.length ∧ applyAll m.entries c = some (c.advance n) ∧ c.rest.take n ∈ L := by
  unfold matchAt at matched
  split at matched
  · cases matched
  · rename_i inside
    have place : Cursor.within input start input.length =
        ⟨input, start, start, input.length, none⟩ := by
      simp only [Cursor.within, Nat.min_self, Nat.min_eq_left (Nat.not_lt.mp inside)]
    have wf := Cursor.wellFormed_within input start input.length
    rw [place] at matched wf
    obtain ⟨d, reached, rfl⟩ := Option.map_eq_some_iff.mp matched
    obtain ⟨n, ⟨bound, rfl⟩, taken⟩ := sound _ d wf reached
    rw [wf.length_rest] at bound
    simp only [Cursor.remaining, Cursor.advance, Nat.add_sub_cancel_left] at bound ⊢
    exact ⟨by omega, reached, taken⟩

/-- What a matcher matches at a position ends in the input and is a word of the language. -/
theorem matchAt_mem (sound : m.IsSoundFor L) (matched : m.matchAt input start = some n) :
    start + n ≤ input.length ∧ input.slice start (start + n) ∈ L := by
  obtain ⟨inside, _, taken⟩ := matchAt_eq_some sound matched
  have ahead : Cursor.IsAhead ⟨input, start, start, input.length, none⟩ _ n :=
    ⟨by simp only [Cursor.rest, Bytes.length_slice, Nat.min_self]; omega, rfl⟩
  exact ⟨inside, ahead.slice ▸ taken⟩

/-- Asked to reach the end of the input, a matcher matches if what it matches anyway reaches
there. -/
theorem matchFront_push_finish (sound : m.IsSoundFor L) (input : Bytes) :
    ((m.push .finish).matchFront input).isSome ↔ m.matchFront input = some input.length := by
  have bound : ¬ input.length < 0 := Nat.not_lt_zero _
  have step (d : Cursor) : Step.finish.apply d = (d.atEnd, d) := rfl
  cases matched : m.matchFront input with
  | none =>
    simp only [matchFront, matchAt, if_neg bound, Option.map_eq_none_iff] at matched
    simp [matchFront, matchAt, applyAll_push, matched]
  | some n =>
    obtain ⟨inside, reached, _⟩ := matchAt_eq_some sound matched
    have place : Cursor.within input 0 input.length = ⟨input, 0, 0, input.length, none⟩ := by
      simp [Cursor.within]
    have ends : (Cursor.advance ⟨input, 0, 0, input.length, none⟩ n).atEnd = true ↔
        n = input.length := by
      rw [Cursor.atEnd, decide_eq_true_iff]
      show input.length ≤ 0 + n ↔ n = input.length
      omega
    simp only [matchFront, matchAt, if_neg bound, applyAll_push, place, reached, step,
      Option.bind_some, Option.some.injEq, ← ends]
    cases (Cursor.advance ⟨input, 0, 0, input.length, none⟩ n).atEnd <;> simp

end Matcher

end Octets
