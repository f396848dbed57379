import Mathlib.Order.Bounds.Basic
import Octets.Form.Body
import Octets.Proofs.Stream.Reached
import Octets.Proofs.Stream.Tokens

/-!
# The delimiter behind the data of a part

Data are read in one pass, and the phase counts how many of the last bytes go on
with the delimiter. The count is the longest overlap of the bytes so far with the
front of the delimiter. No table of shorter overlaps is needed for that: since a
delimiter holds no second carriage return, the only shorter one is empty.

## Main definitions

* `Form.IsDelimiter` — a carriage return and then bytes other than that
* `Form.overlaps` — how many bytes from the front of a delimiter some bytes end
  with
* `Form.Matches` — how far data that hold no delimiter have come in matching one

## Main results

* `IsDelimiter.isGreatest_advanceMatch` — the phase counts the longest overlap
* `IsDelimiter.matches_concat` — and no byte completes the delimiter unseen
* `reads_data`, `reads_delimiter` — data are read into a token until the first delimiter has ended
* `closes_data` — data that do not hold the delimiter are read up to it, as one token, and stored
-/

namespace Octets.Form

/-- A carriage return is the first byte of a delimiter, and no other. -/
def IsDelimiter (delimiter : Bytes) : Prop :=
  ∃ rest, delimiter = Byte.cr :: rest ∧ Byte.cr ∉ rest

/-- How many bytes from the front of a delimiter some bytes end with. -/
def overlaps (delimiter bytes : Bytes) : Set Nat :=
  {k | k ≤ delimiter.length ∧ delimiter.take k <:+ bytes}

/-- Data hold no delimiter, and the longest overlap with the front of one has so many bytes. -/
structure Matches (delimiter data : Bytes) (matched : Nat) : Prop where
  lt_length : matched < delimiter.length
  isGreatest : IsGreatest (overlaps delimiter data) matched
  not_infix : ¬ delimiter <:+: data

variable {delimiter bytes data : Bytes} {b : UInt8} {j k : Nat}

/-! ## Overlaps -/

theorem zero_mem_overlaps : 0 ∈ overlaps delimiter bytes := ⟨Nat.zero_le _, by simp⟩

theorem isGreatest_overlaps_nil : IsGreatest (overlaps delimiter []) 0 := by
  refine ⟨zero_mem_overlaps, fun k member => ?_⟩
  have length := member.2.length_le
  rwa [List.length_take_of_le member.1] at length

/-- With one more byte the overlaps are those before it that it continues, and the
empty one. -/
theorem succ_mem_overlaps_append_iff :
    k + 1 ∈ overlaps delimiter (bytes ++ [b]) ↔
      k ∈ overlaps delimiter bytes ∧ delimiter[k]? = some b := by
  constructor
  · rintro ⟨bound, ends⟩
    rw [List.take_add_one, List.getElem?_eq_getElem bound, Option.toList_some,
      List.suffix_concat_iff] at ends
    obtain empty | ⟨front, split, ends⟩ := ends
    · rw [List.append_eq_nil_iff] at empty
      cases empty.2
    · obtain ⟨rfl, same⟩ := List.append_inj' split rfl
      rw [List.getElem?_eq_getElem bound]
      exact ⟨⟨Nat.le_of_lt bound, ends⟩, congrArg some (List.singleton_inj.mp same)⟩
  · rintro ⟨⟨_, ends⟩, next⟩
    obtain ⟨bound, _⟩ := List.getElem?_eq_some_iff.mp next
    refine ⟨bound, ?_⟩
    rw [List.take_add_one, next, Option.toList_some, List.suffix_concat_iff]
    exact .inr ⟨_, rfl, ends⟩

/-- The longest overlap is the whole delimiter exactly behind one. -/
theorem eq_length_iff_suffix (longest : IsGreatest (overlaps delimiter bytes) k) :
    k = delimiter.length ↔ delimiter <:+ bytes := by
  constructor
  · rintro rfl
    simpa using longest.1.2
  · intro ends
    exact Nat.le_antisymm longest.1.1 (longest.2 ⟨Nat.le_refl _, by simpa using ends⟩)

namespace IsDelimiter

/-- A delimiter begins nowhere inside itself. -/
theorem getElem?_ne_cr (valid : IsDelimiter delimiter) (inside : 0 < k) :
    delimiter[k]? ≠ some Byte.cr := by
  obtain ⟨rest, rfl, once⟩ := valid
  obtain ⟨k, rfl⟩ := Nat.exists_eq_succ_of_ne_zero (Nat.ne_of_gt inside)
  rw [List.getElem?_cons_succ]
  exact fun again => once (List.mem_of_getElem? again)

theorem getElem?_zero (valid : IsDelimiter delimiter) : delimiter[0]? = some Byte.cr := by
  obtain ⟨rest, rfl, _⟩ := valid
  rfl

/-- Of two overlaps the smaller one is empty. -/
theorem eq_zero_of_lt (valid : IsDelimiter delimiter) (left : j ∈ overlaps delimiter bytes)
    (right : k ∈ overlaps delimiter bytes) (less : j < k) : j = 0 := by
  by_contra positive
  have lengths : (delimiter.take j).length = j ∧ (delimiter.take k).length = k :=
    ⟨List.length_take_of_le left.1, List.length_take_of_le right.1⟩
  have nested : delimiter.take j <:+ delimiter.take k :=
    List.suffix_of_suffix_length_le left.2 right.2 (by omega)
  obtain ⟨front, split⟩ := nested
  have length : front.length + j = k := by
    rw [← lengths.1, ← List.length_append, split, lengths.2]
  have first : (delimiter.take k)[front.length]? = some Byte.cr := by
    rw [← split, List.getElem?_append_right (Nat.le_refl _), Nat.sub_self,
      List.getElem?_take_of_lt (Nat.pos_of_ne_zero positive)]
    exact valid.getElem?_zero
  rw [List.getElem?_take_of_lt (by omega)] at first
  exact valid.getElem?_ne_cr (by omega) first

/-- One more byte keeps the phase at the longest overlap. -/
theorem isGreatest_advanceMatch (valid : IsDelimiter delimiter)
    (longest : IsGreatest (overlaps delimiter bytes) k) :
    IsGreatest (overlaps delimiter (bytes ++ [b])) (advanceMatch delimiter k b) := by
  unfold advanceMatch
  by_cases goes : delimiter[k]? = some b
  · rw [if_pos goes]
    refine ⟨succ_mem_overlaps_append_iff.mpr ⟨longest.1, goes⟩, fun j member => ?_⟩
    cases j with
    | zero => exact Nat.zero_le _
    | succ j =>
      exact Nat.succ_le_succ (longest.2 (succ_mem_overlaps_append_iff.mp member).1)
  rw [if_neg goes]
  -- Only the empty overlap is left to be continued, and only by a carriage return.
  have restarts (j : Nat) (member : j + 1 ∈ overlaps delimiter (bytes ++ [b])) :
      j = 0 ∧ b = Byte.cr := by
    obtain ⟨before, next⟩ := succ_mem_overlaps_append_iff.mp member
    have differ : j ≠ k := fun same => goes (same ▸ next)
    have none : j = 0 :=
      valid.eq_zero_of_lt before longest.1 (Nat.lt_of_le_of_ne (longest.2 before) differ)
    subst none
    rw [valid.getElem?_zero, Option.some.injEq] at next
    exact ⟨rfl, next.symm⟩
  by_cases again : b = Byte.cr
  · rw [if_pos again]
    refine ⟨succ_mem_overlaps_append_iff.mpr
      ⟨zero_mem_overlaps, again ▸ valid.getElem?_zero⟩, fun j member => ?_⟩
    cases j with
    | zero => exact Nat.zero_le _
    | succ j => rw [(restarts j member).1]
  · rw [if_neg again]
    refine ⟨zero_mem_overlaps, fun j member => ?_⟩
    cases j with
    | zero => exact Nat.le_refl _
    | succ j => exact absurd (restarts j member).2 again

end IsDelimiter

/-! ## Matching the delimiter -/

/-- Data that hold no delimiter overlap with less than the whole of it. -/
theorem Matches.of_isGreatest (longest : IsGreatest (overlaps delimiter data) k)
    (clean : ¬ delimiter <:+: data) : Matches delimiter data k where
  lt_length := Nat.lt_of_le_of_ne longest.1.1 fun whole =>
    clean ((eq_length_iff_suffix longest).mp whole).isInfix
  isGreatest := longest
  not_infix := clean

namespace IsDelimiter

theorem matches_nil (valid : IsDelimiter delimiter) : Matches delimiter [] 0 := by
  refine .of_isGreatest isGreatest_overlaps_nil fun inside => ?_
  obtain ⟨rest, rfl, _⟩ := valid
  cases List.infix_nil.mp inside

/-- One more byte ends a delimiter exactly if the count says so. -/
theorem advanceMatch_eq_length_iff (valid : IsDelimiter delimiter)
    (longest : IsGreatest (overlaps delimiter data) k) :
    advanceMatch delimiter k b = delimiter.length ↔ delimiter <:+ data ++ [b] :=
  eq_length_iff_suffix (valid.isGreatest_advanceMatch longest)

/-- One more byte that does not complete the delimiter. -/
theorem matches_concat (valid : IsDelimiter delimiter) (matches' : Matches delimiter data k)
    (pending : advanceMatch delimiter k b ≠ delimiter.length) :
    Matches delimiter (data ++ [b]) (advanceMatch delimiter k b) := by
  have longest := matches'.isGreatest
  refine .of_isGreatest (valid.isGreatest_advanceMatch longest) fun inside => ?_
  obtain ends | before := List.infix_concat_iff.mp inside
  · exact pending ((valid.advanceMatch_eq_length_iff longest).mpr ends)
  · exact matches'.not_infix before

/-- The first byte of data completes no delimiter. -/
theorem matches_singleton (valid : IsDelimiter delimiter) (long : 1 < delimiter.length)
    (b : UInt8) : Matches delimiter [b] (advanceMatch delimiter 0 b) := by
  refine valid.matches_concat valid.matches_nil fun whole => ?_
  have short := ((valid.advanceMatch_eq_length_iff isGreatest_overlaps_nil).mp whole).length_le
  exact absurd short (Nat.not_le_of_lt long)

/-- Data in front of a delimiter that hold none have one only at their end. -/
theorem not_infix_of_append_eq (valid : IsDelimiter delimiter) (clean : ¬ delimiter <:+: data)
    {front back : Bytes} (cut : front ++ back = data ++ delimiter) (more : back ≠ []) :
    ¬ delimiter <:+: front := by
  rintro ⟨before, after, rfl⟩
  rw [List.append_assoc] at cut
  have positive : 0 < back.length := List.length_pos_iff.mpr more
  have lengths := congrArg List.length cut
  simp only [List.length_append] at lengths
  by_cases early : before.length + delimiter.length ≤ data.length
  · -- The occurrence lies within the data.
    have within : before ++ delimiter <+: data :=
      List.prefix_of_prefix_length_le ⟨_, cut⟩ (List.prefix_append data delimiter) (by simpa)
    exact clean ((List.suffix_append before delimiter).isInfix.trans within.isInfix)
  · -- It reaches into the delimiter, whose first byte it would hold inside.
    have first : (before ++ delimiter ++ (after ++ back))[data.length]? = some Byte.cr := by
      rw [cut, List.getElem?_append_right (Nat.le_refl _), Nat.sub_self, valid.getElem?_zero]
    rw [List.append_assoc, List.getElem?_append_right (by omega),
      List.getElem?_append_left (by omega)] at first
    exact valid.getElem?_ne_cr (by omega) first

end IsDelimiter

/-! ## What is stored leaves the delimiter alone -/

section Stored

variable {m next : Memory} {line bytes : Bytes}

theorem delimiter_of_storeBoundary (stored : m.storeBoundary bytes = .ok next) :
    next.delimiter = Byte.cr :: Byte.lf :: bytes := by
  unfold Memory.storeBoundary at stored
  split at stored <;> cases stored
  rfl

theorem delimiter_of_storeHeader (stored : m.storeHeader line = .ok next) :
    next.delimiter = m.delimiter := by
  unfold Memory.storeHeader at stored
  split at stored <;> cases stored
  rfl

theorem delimiter_of_storePart (stored : m.storePart bytes = .ok next) :
    next.delimiter = m.delimiter := by
  unfold Memory.storePart at stored
  simp only at stored
  split at stored <;> cases stored
  rfl

end Stored

/-! ## The data of a part -/

section Content

open Octets.Stream Octets.Stream.Grammar

variable {m stored : Memory} {limit : Option Nat} {n : Nat}

theorem storePart_enter (m : Memory) (phase : Phase) (token : Bytes) :
    (m.enter phase).storePart token = (m.storePart token).map (·.enter phase) := by
  unfold Memory.storePart
  cases name : m.part.name with
  | none =>
    rw [show (m.enter phase).part.name = none from name]
    rfl
  | some _ =>
    rw [show (m.enter phase).part.name = some _ from name]
    rfl

theorem visitContent_enter_of_ne (pending : advanceMatch m.delimiter k b ≠ m.delimiter.length) :
    visit (m.enter (.content k)) b =
      .inside (m.enter (.content (advanceMatch m.delimiter k b))) :=
  if_neg pending

theorem visitContent_enter_of_eq (whole : advanceMatch m.delimiter k b = m.delimiter.length) :
    visit (m.enter (.content k)) b = .last fun token =>
      ((m.enter (.content k)).storePart token).map (·.enter .afterBoundary) :=
  if_pos whole

/-- While they hold no delimiter, bytes are read into the open token, and the phase counts how
far they match one. -/
theorem reads_content (valid : IsDelimiter m.delimiter) {front back : Bytes}
    (matches' : Matches m.delimiter front k) (clean : ¬ m.delimiter <:+: front ++ back) :
    ∃ j, Matches m.delimiter (front ++ back) j ∧
      grammar.Reads ⟨m.enter (.content k), some front, limit, n⟩ back
        ⟨m.enter (.content j), some (front ++ back), limit, n⟩ := by
  induction back generalizing front k with
  | nil =>
    rw [List.append_nil]
    exact ⟨k, matches', .nil _⟩
  | cons b back ih =>
    rw [← List.singleton_append, ← List.append_assoc] at clean ⊢
    have pending : advanceMatch m.delimiter k b ≠ m.delimiter.length := fun whole =>
      have ends := (valid.advanceMatch_eq_length_iff matches'.isGreatest).mp whole
      clean (ends.isInfix.trans (List.prefix_append (front ++ [b]) back).isInfix)
    obtain ⟨j, later, trace⟩ := ih (valid.matches_concat matches' pending) clean
    exact ⟨j, later, .cons rfl (read_inside (visitContent_enter_of_ne pending)) trace⟩

/-- The same, from the first byte of the data. -/
theorem reads_data (limit : Option Nat) (n : Nat) (valid : IsDelimiter m.delimiter)
    (long : 1 < m.delimiter.length) (nonempty : data ≠ []) (clean : ¬ m.delimiter <:+: data) :
    ∃ k, Matches m.delimiter data k ∧
      grammar.Reads ⟨m.enter .contentStart, none, limit, n⟩ data
        ⟨m.enter (.content k), some data, limit, n⟩ := by
  obtain ⟨b, back, rfl⟩ := List.exists_cons_of_ne_nil nonempty
  obtain ⟨k, matches', trace⟩ := reads_content valid (valid.matches_singleton long b) clean
  exact ⟨k, matches', .cons rfl (read_first rfl) trace⟩

/-- In front of the last byte of the first delimiter, the data and the delimiter are read into
the open token, and that byte closes it. -/
theorem exists_reads_last (limit : Option Nat) (n : Nat) (valid : IsDelimiter m.delimiter)
    (long : 1 < m.delimiter.length) (clean : ¬ m.delimiter <:+: data) :
    ∃ front b k, data ++ m.delimiter = front ++ [b] ∧
      grammar.Reads ⟨m.enter .contentStart, none, limit, n⟩ front
        ⟨m.enter (.content k), some front, limit, n⟩ ∧
      visit (m.enter (.content k)) b = .last fun token =>
        ((m.enter (.content k)).storePart token).map (·.enter .afterBoundary) := by
  have ends := List.suffix_append data m.delimiter
  have two := Nat.lt_of_lt_of_le long ends.length_le
  obtain empty | ⟨front, b, cut⟩ := List.eq_nil_or_concat (data ++ m.delimiter)
  · rw [empty] at two
    exact absurd two (Nat.not_lt_zero 1)
  rw [List.concat_eq_append] at cut
  rw [cut] at ends two
  have nonempty : front ≠ [] := by
    rintro rfl
    exact absurd two (Nat.lt_irrefl 1)
  obtain ⟨k, matches', trace⟩ := reads_data limit n valid long nonempty
    (valid.not_infix_of_append_eq clean cut.symm (List.cons_ne_nil b []))
  exact ⟨front, b, k, cut, trace, visitContent_enter_of_eq
    ((valid.advanceMatch_eq_length_iff matches'.isGreatest).mpr ends)⟩

theorem storePart_enter_enter (stores : m.storePart bytes = .ok stored) (phase phase' : Phase) :
    ((m.enter phase).storePart bytes).map (·.enter phase') = .ok (stored.enter phase') := by
  rw [storePart_enter, stores]
  rfl

/-- Data without the delimiter, and the delimiter behind them, are read as one token, and as
the data of a part. -/
theorem closes_data (valid : IsDelimiter m.delimiter) (long : 1 < m.delimiter.length)
    (clean : ¬ m.delimiter <:+: data)
    (stores : m.storePart (data ++ m.delimiter) = .ok stored) :
    grammar.Closes ⟨m.enter .contentStart, none, none, n⟩ (data ++ m.delimiter)
      [data ++ m.delimiter] ⟨stored.enter .afterBoundary, none, none, n⟩ := by
  obtain ⟨front, b, k, cut, trace, last⟩ := exists_reads_last none n valid long clean
  rw [cut] at stores ⊢
  have gathered := trace.closes_nil (Nat.le_of_eq (Nat.zero_add _))
  have used := storePart_enter_enter stores (.content k) .afterBoundary
  exact gathered.append (.of_last rfl rfl last used)

/-- The same under a limit that the data and the delimiter are within. -/
theorem reads_delimiter (valid : IsDelimiter m.delimiter) (long : 1 < m.delimiter.length)
    (clean : ¬ m.delimiter <:+: data) (stores : m.storePart (data ++ m.delimiter) = .ok stored)
    (fits : ∀ max ∈ limit, (data ++ m.delimiter).length ≤ max) :
    grammar.Reads ⟨m.enter .contentStart, none, limit, n⟩ (data ++ m.delimiter)
      ⟨stored.enter .afterBoundary, none, limit, n⟩ := by
  obtain ⟨front, b, k, cut, trace, last⟩ := exists_reads_last limit n valid long clean
  rw [cut] at stores fits ⊢
  have used := storePart_enter_enter stores (.content k) .afterBoundary
  refine trace.append (.single rfl (read_last_of_fits ?_ last used))
  exact Session.exceeded_eq_none_iff.mpr fits

end Content

end Octets.Form
