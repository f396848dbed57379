import Octets.LeadTable

/-!
# What scans take

A scan takes bytes from the front of the unread ones and no more than there are. Where it
searches, what it takes ends with what was searched for; where it looks into a table, with a
sequence of the table.

## Main definitions

* `Scan.IsBounded` — a scan that takes no more than the unread bytes
* `Scan.TakesBytes` — a scan that never takes zero bytes

## Main results

* `Scan.before_eq_some`, `LeadTable.first_eq_some`, `Scan.entryEnd_eq_some` — where a search
  ends
* `Scan.isBounded_through`, `Scan.isBounded_entries` and their like — all scans are bounded
-/

namespace Octets

namespace LeadTable

variable {t : LeadTable} {bytes : Bytes} {n : Nat}

/-- The sequence that matches is one of the group of the first byte. -/
theorem mem_matchLengths (member : n ∈ t.matchLengths bytes) :
    ∃ lead rest, bytes = lead :: rest ∧
      ∃ sequence ∈ spelled lead (t.group lead), sequence <+: bytes ∧ sequence.length = n := by
  cases bytes with
  | nil => simp [matchLengths] at member
  | cons lead rest =>
    simp only [matchLengths, List.mem_map, List.mem_filter, List.isPrefixOf_iff_prefix] at member
    obtain ⟨sequence, ⟨grouped, front⟩, length⟩ := member
    exact ⟨lead, rest, rfl, sequence, grouped, front, length⟩

theorem first_eq_some (found : t.first bytes = some n) :
    ∃ lead rest, bytes = lead :: rest ∧
      ∃ sequence ∈ spelled lead (t.group lead), sequence <+: bytes ∧ sequence.length = n :=
  mem_matchLengths (List.mem_of_head? found)

theorem le_length_of_mem_matchLengths (member : n ∈ t.matchLengths bytes) :
    n ≤ bytes.length := by
  obtain ⟨_, _, _, sequence, _, front, rfl⟩ := mem_matchLengths member
  exact front.length_le

end LeadTable

namespace Scan

variable {scan : Scan} {bytes lit : Bytes} {cls : UInt8 → Bool} {n : Nat}

/-- A scan that takes no more than the unread bytes. -/
def IsBounded (scan : Scan) : Prop := ∀ bytes n, scan bytes = some n → n ≤ bytes.length

/-- A scan that never takes zero bytes. -/
def TakesBytes (scan : Scan) : Prop := ∀ bytes n, scan bytes = some n → 0 < n

/-! ## Lengths that may not be zero -/

theorem isBounded_nonzero {length : Bytes → Nat} (bound : ∀ bytes, length bytes ≤ bytes.length) :
    IsBounded fun bytes => nonzero (length bytes) := by
  intro bytes n takes
  obtain ⟨rfl, _⟩ := nonzero_eq_some.mp takes
  exact bound bytes

theorem isBounded_bind_nonzero (bounded : IsBounded scan) :
    IsBounded fun bytes => (scan bytes).bind nonzero := by
  intro bytes n takes
  obtain ⟨m, found, takes⟩ := Option.bind_eq_some_iff.mp takes
  obtain ⟨rfl, _⟩ := nonzero_eq_some.mp takes
  exact bounded bytes m found

theorem takesBytes_nonzero (length : Bytes → Nat) :
    TakesBytes fun bytes => nonzero (length bytes) := by
  intro bytes n takes
  obtain ⟨rfl, positive⟩ := nonzero_eq_some.mp takes
  exact positive

theorem takesBytes_bind_nonzero (scan : Scan) :
    TakesBytes fun bytes => (scan bytes).bind nonzero := by
  intro bytes n takes
  obtain ⟨m, _, takes⟩ := Option.bind_eq_some_iff.mp takes
  obtain ⟨rfl, positive⟩ := nonzero_eq_some.mp takes
  exact positive

/-! ## Bytes and runs -/

theorem byte_eq_some (takes : byte cls bytes = some n) :
    n = 1 ∧ ∃ b rest, bytes = b :: rest ∧ cls b = true := by
  cases bytes with
  | nil => cases takes
  | cons b rest =>
    simp only [byte, Option.ite_none_right_eq_some, Option.some.injEq] at takes
    exact ⟨takes.2.symm, b, rest, rfl, takes.1⟩

theorem isBounded_byte (cls : UInt8 → Bool) : IsBounded (byte cls) := by
  intro bytes n takes
  obtain ⟨rfl, b, rest, rfl, _⟩ := byte_eq_some takes
  exact Nat.le_add_left 1 rest.length

theorem takesBytes_byte (cls : UInt8 → Bool) : TakesBytes (byte cls) := by
  intro bytes n takes
  obtain ⟨rfl, _⟩ := byte_eq_some takes
  exact Nat.one_pos

theorem isBounded_run (cls : UInt8 → Bool) : IsBounded (run cls) :=
  isBounded_nonzero fun _ => (List.takeWhile_prefix cls).length_le

theorem unescapedLength_le (cls : UInt8 → Bool) (bytes : Bytes) :
    unescapedLength cls bytes ≤ bytes.length := by
  fun_induction unescapedLength cls bytes with
  | case1 => exact Nat.le_refl _
  | case2 => exact Nat.zero_le _
  | case3 => exact Nat.le_refl _
  | case4 c rest ih => exact Nat.add_le_add_right ih 2
  | case5 => exact Nat.zero_le _
  | case6 b c rest _ _ ih => exact Nat.add_le_add_right ih 1

theorem isBounded_upToUnescaped (cls : UInt8 → Bool) : IsBounded (upToUnescaped cls) :=
  isBounded_nonzero (unescapedLength_le cls)

/-! ## Literals -/

theorem isBounded_literal (lit : Bytes) : IsBounded (literal lit) := by
  intro bytes n takes
  obtain ⟨front, rfl⟩ := literal_eq_some.mp takes
  exact front.length_le

theorem length_le_of_beginsWithEither {pairs : List (UInt8 × UInt8)}
    (begins : beginsWithEither pairs bytes = true) : pairs.length ≤ bytes.length := by
  induction pairs generalizing bytes with
  | nil => exact Nat.zero_le _
  | cons pair pairs ih =>
    cases bytes with
    | nil => cases begins
    | cons b rest =>
      have later := (Bool.and_eq_true_iff.mp begins).2
      exact Nat.succ_le_succ (ih later)

theorem either_eq_some {a b : Bytes} (takes : either a b bytes = some n) :
    n = min a.length b.length ∧ n ≤ bytes.length := by
  simp only [either, Option.ite_none_right_eq_some, Option.some.injEq] at takes
  obtain ⟨begins, rfl⟩ := takes
  exact ⟨List.length_zip, length_le_of_beginsWithEither begins⟩

theorem keyword_eq_some (takes : keyword lit bytes = some n) :
    lit <+: bytes ∧ lit.length = n := by
  simp only [keyword, Option.ite_none_right_eq_some, Option.some.injEq] at takes
  obtain ⟨fits, length⟩ := takes
  exact ⟨List.isPrefixOf_iff_prefix.mp (Bool.and_eq_true_iff.mp fits).1, length⟩

/-! ## Searches -/

/-- The literal stands where the search for it has ended. -/
theorem before_eq_some (found : before lit bytes = some n) :
    n ≤ bytes.length ∧ lit <+: bytes.drop n := by
  induction bytes generalizing n with
  | nil =>
    unfold before at found
    split at found <;> cases found
    rename_i none
    rw [List.isEmpty_iff.mp none]
    exact ⟨Nat.le_refl _, List.nil_prefix⟩
  | cons b rest ih =>
    unfold before at found
    split at found
    · cases found
      exact ⟨Nat.zero_le _, List.isPrefixOf_iff_prefix.mp ‹_›⟩
    · obtain ⟨m, later, rfl⟩ := Option.map_eq_some_iff.mp found
      obtain ⟨bound, front⟩ := ih later
      exact ⟨Nat.succ_le_succ bound, front⟩

theorem isBounded_before (lit : Bytes) : IsBounded (before lit) := fun _ _ found =>
  (before_eq_some found).1

theorem isBounded_through (lit : Bytes) : IsBounded (through lit) := by
  intro bytes n takes
  obtain ⟨m, found, rfl⟩ := Option.map_eq_some_iff.mp takes
  obtain ⟨bound, front⟩ := before_eq_some found
  have inside := front.length_le
  rw [List.length_drop] at inside
  omega

theorem unescapedIndex_le {escaped : Bool} (found : unescapedIndex lit escaped bytes = some n) :
    n ≤ bytes.length := by
  induction bytes generalizing escaped n with
  | nil => cases found
  | cons b rest ih =>
    unfold unescapedIndex at found
    split at found
    · cases found
      exact Nat.zero_le _
    · obtain ⟨m, later, rfl⟩ := Option.map_eq_some_iff.mp found
      exact Nat.succ_le_succ (ih later)

theorem isBounded_beforeUnescaped (lit : Bytes) : IsBounded (beforeUnescaped lit) :=
  isBounded_bind_nonzero fun _ _ => unescapedIndex_le

/-! ## Quotes -/

/-- A closing quote is one of the bytes. -/
theorem closingIndex_lt {quote : UInt8} (found : closingIndex quote bytes = some n) :
    n < bytes.length := by
  fun_induction closingIndex quote bytes generalizing n with
  | case1 => cases found
  | case2 =>
    cases found
    exact Nat.zero_lt_one
  | case3 => cases found
  | case4 c rest ih =>
    obtain ⟨m, later, rfl⟩ := Option.map_eq_some_iff.mp found
    exact Nat.add_lt_add_right (ih later) 2
  | case5 =>
    cases found
    exact Nat.succ_pos _
  | case6 b c rest _ _ ih =>
    obtain ⟨m, later, rfl⟩ := Option.map_eq_some_iff.mp found
    exact Nat.add_lt_add_right (ih later) 1

/-- What stands between two quotes has both of them around it. -/
theorem quoted_eq_some {quote : UInt8} (takes : quoted quote bytes = some n) :
    1 < n ∧ n ≤ bytes.length := by
  cases bytes with
  | nil => cases takes
  | cons b rest =>
    simp only [quoted, Option.ite_none_right_eq_some, Option.map_eq_some_iff] at takes
    obtain ⟨_, m, found, rfl⟩ := takes
    obtain ⟨inside, _⟩ := List.idxOf?_eq_some_iff.mp found
    simp only [List.length_cons]
    omega

theorem quotedEscaped_eq_some {quote : UInt8} (takes : quotedEscaped quote bytes = some n) :
    1 < n ∧ n ≤ bytes.length := by
  cases bytes with
  | nil => cases takes
  | cons b rest =>
    simp only [quotedEscaped, Option.ite_none_right_eq_some, Option.map_eq_some_iff] at takes
    obtain ⟨_, m, found, rfl⟩ := takes
    have inside := closingIndex_lt found
    simp only [List.length_cons]
    omega

/-! ## Tables -/

section Tables

variable (t : LeadTable)

theorem isBounded_first : IsBounded t.first := fun _ _ found =>
  LeadTable.le_length_of_mem_matchLengths (List.mem_of_head? found)

theorem isBounded_entry : IsBounded (entry t) := isBounded_bind_nonzero (isBounded_first t)

theorem isBounded_entryIndex : IsBounded (entryIndex t) := by
  intro bytes n found
  induction bytes generalizing n with
  | nil => cases found
  | cons b rest ih =>
    unfold entryIndex at found
    split at found
    · cases found
      exact Nat.zero_le _
    · obtain ⟨m, later, rfl⟩ := Option.map_eq_some_iff.mp found
      exact Nat.succ_le_succ (ih m later)

theorem isBounded_beforeEntry : IsBounded (beforeEntry t) :=
  isBounded_bind_nonzero (isBounded_entryIndex t)

variable {t}

/-- A sequence of the table stands where the search for one has ended. -/
theorem entryEnd_eq_some (found : entryEnd t bytes = some n) :
    ∃ front length, n = front + length ∧ front ≤ bytes.length ∧
      t.first (bytes.drop front) = some length := by
  induction bytes generalizing n with
  | nil => cases found
  | cons b rest ih =>
    unfold entryEnd at found
    split at found
    · rename_i matched
      cases found
      exact ⟨0, n, (Nat.zero_add n).symm, Nat.zero_le _, matched⟩
    · obtain ⟨m, later, rfl⟩ := Option.map_eq_some_iff.mp found
      obtain ⟨front, length, rfl, bound, matched⟩ := ih later
      exact ⟨front + 1, length, Nat.add_right_comm _ _ _, Nat.succ_le_succ bound, matched⟩

variable (t)

theorem isBounded_throughEntry : IsBounded (throughEntry t) := by
  apply isBounded_bind_nonzero
  intro bytes n found
  obtain ⟨front, length, rfl, bound, matched⟩ := entryEnd_eq_some found
  have inside := isBounded_first t _ _ matched
  rw [List.length_drop] at inside
  omega

theorem entriesLength_le (bytes : Bytes) : entriesLength t bytes ≤ bytes.length := by
  fun_induction entriesLength t bytes with
  | case1 => exact Nat.le_refl _
  | case2 b rest n matched ih =>
    have inside := isBounded_first t _ _ matched
    rw [List.length_drop] at ih
    rw [List.length_cons] at inside ⊢
    omega
  | case3 => exact Nat.zero_le _

theorem isBounded_entries : IsBounded (entries t) := isBounded_nonzero (entriesLength_le t)

theorem isBounded_keywordEntry : IsBounded (keywordEntry t) := by
  have bounded : IsBounded fun bytes =>
      (t.matchLengths bytes).find? fun n => !beginsWithIdentifier (bytes.drop n) := by
    intro bytes n found
    exact LeadTable.le_length_of_mem_matchLengths (List.mem_of_find?_eq_some found)
  exact isBounded_bind_nonzero bounded

end Tables

end Scan

end Octets
