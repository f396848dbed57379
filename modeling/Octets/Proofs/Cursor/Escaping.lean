import Mathlib.Algebra.Ring.Parity
import Mathlib.Data.List.DropRight
import Mathlib.Order.Bounds.Basic
import Mathlib.Order.Nat
import Octets.Proofs.Cursor.Transaction

/-!
# One notion of escaped bytes

Three scans look for something that no backslash escapes. Two of them skip the byte behind a
backslash, and one keeps track of backslashes byte by byte, but they agree on what is escaped:
the byte behind an odd number of consecutive backslashes. Each of them ends at the first
unescaped place where that stands which it looks for, even if the window ends right behind a
backslash.

## Main definitions

* `Bytes.IsEscapedAt` — an odd number of consecutive backslashes stands in front
* `Bytes.unescapedPlaces` — where something stands that is not escaped
* `Scan.firstUnescaped` — the search for the first such place, byte by byte

## Main results

* `Bytes.escapesNext_iff_odd` — whether a byte is escaped, told from what came before
* `Scan.firstUnescaped_eq_some_iff`, `Scan.firstUnescaped_eq_none_iff` — where the search ends
* `Scan.unescapedIndex_eq`, `Scan.closingIndex_eq`, `Scan.unescapedLength_eq` — all three scans
  are this search
* `Primitive.apply_unescaped` — what they take at a cursor
-/

namespace Octets

/-! ## Escaped bytes -/

namespace Bytes

/-- An odd number of consecutive backslashes stands directly in front of an index. -/
def IsEscapedAt (bytes : Bytes) (i : Nat) : Prop :=
  Odd ((bytes.take i).rtakeWhile (· == Byte.backslash)).length

/-- The indices that are not escaped and from which on something stands. -/
def unescapedPlaces (stands : Bytes → Prop) (bytes : Bytes) : Set Nat :=
  {i | i < bytes.length ∧ ¬ bytes.IsEscapedAt i ∧ stands (bytes.drop i)}

/-- Whether the byte behind some bytes is escaped, if it is known whether the first of them
is. -/
def escapesNext (escaped : Bool) (bytes : Bytes) : Bool :=
  bytes.foldl (fun escaped b => b == Byte.backslash && !escaped) escaped

theorem escapesNext_concat (escaped : Bool) (bytes : Bytes) (b : UInt8) :
    escapesNext escaped (bytes ++ [b]) = (b == Byte.backslash && !escapesNext escaped bytes) := by
  simp [escapesNext]

/-- Every backslash turns around whether the next byte is escaped, and every other byte ends
the matter. So it is their number at the end that counts. -/
theorem escapesNext_iff_odd (bytes : Bytes) :
    escapesNext false bytes = true ↔
      Odd (bytes.rtakeWhile (· == Byte.backslash)).length := by
  induction bytes using List.reverseRecOn with
  | nil => decide
  | append_singleton front b ih =>
    rw [escapesNext_concat, List.rtakeWhile_concat]
    by_cases backslash : b = Byte.backslash
    · rw [if_pos (beq_iff_eq.mpr backslash), List.length_append, List.length_singleton,
        Nat.odd_add_one, ← ih]
      simp [backslash]
    · rw [if_neg (by simpa using backslash)]
      simp [backslash]

theorem isEscapedAt_iff {bytes : Bytes} {i : Nat} :
    bytes.IsEscapedAt i ↔ escapesNext false (bytes.take i) = true :=
  (escapesNext_iff_odd _).symm

end Bytes

/-! ## The search -/

namespace Scan

variable {stands : Bytes → Bool} {escaped : Bool} {b : UInt8} {bytes rest : Bytes} {i n : Nat}

/-- The first place that is not escaped and from which on something stands, given whether the
first byte is escaped. -/
def firstUnescaped (stands : Bytes → Bool) : Bool → Bytes → Option Nat
  | _, [] => none
  | escaped, b :: rest =>
    if !escaped && stands (b :: rest) then some 0
    else (firstUnescaped stands (b == Byte.backslash && !escaped) rest).map (· + 1)

/-- The places that are not escaped and from which on something stands, given whether the first
byte is escaped. -/
def placesFrom (stands : Bytes → Bool) (escaped : Bool) (bytes : Bytes) : Set Nat :=
  {i | i < bytes.length ∧ Bytes.escapesNext escaped (bytes.take i) = false ∧
    stands (bytes.drop i) = true}

theorem placesFrom_false {P : Bytes → Prop} (decides : ∀ rest, stands rest = true ↔ P rest) :
    placesFrom stands false bytes = bytes.unescapedPlaces P := by
  ext i
  simp [placesFrom, Bytes.unescapedPlaces, Bytes.isEscapedAt_iff, decides]

theorem zero_mem_placesFrom_iff :
    0 ∈ placesFrom stands escaped (b :: rest) ↔ (!escaped && stands (b :: rest)) = true := by
  simp [placesFrom, Bytes.escapesNext]

theorem succ_mem_placesFrom_iff :
    i + 1 ∈ placesFrom stands escaped (b :: rest) ↔
      i ∈ placesFrom stands (b == Byte.backslash && !escaped) rest := by
  simp [placesFrom, Bytes.escapesNext]

/-- The search ends at the first place. -/
theorem firstUnescaped_eq_some_iff :
    firstUnescaped stands escaped bytes = some n ↔ IsLeast (placesFrom stands escaped bytes) n := by
  induction bytes generalizing escaped n with
  | nil => simp [firstUnescaped, placesFrom, IsLeast]
  | cons b rest ih =>
    rw [firstUnescaped]
    by_cases front : 0 ∈ placesFrom stands escaped (b :: rest)
    · rw [if_pos (zero_mem_placesFrom_iff.mp front), Option.some.injEq]
      have least : IsLeast (placesFrom stands escaped (b :: rest)) 0 :=
        ⟨front, fun _ _ => Nat.zero_le _⟩
      exact ⟨fun same => same ▸ least, fun least' => least.unique least'⟩
    · rw [if_neg (zero_mem_placesFrom_iff.not.mp front), Option.map_eq_some_iff]
      constructor
      · rintro ⟨m, found, rfl⟩
        obtain ⟨member, least⟩ := ih.mp found
        refine ⟨succ_mem_placesFrom_iff.mpr member, fun j member' => ?_⟩
        cases j with
        | zero => exact absurd member' front
        | succ j => exact Nat.succ_le_succ (least (succ_mem_placesFrom_iff.mp member'))
      · rintro ⟨member, least⟩
        cases n with
        | zero => exact absurd member front
        | succ m =>
          refine ⟨m, ih.mpr ⟨succ_mem_placesFrom_iff.mp member, fun j member' => ?_⟩, rfl⟩
          exact Nat.le_of_succ_le_succ (least (succ_mem_placesFrom_iff.mpr member'))

theorem firstUnescaped_eq_none_iff :
    firstUnescaped stands escaped bytes = none ↔ placesFrom stands escaped bytes = ∅ := by
  constructor
  · intro absent
    refine Set.eq_empty_iff_forall_notMem.mpr fun i member => ?_
    classical
    have least := Set.Nonempty.isLeast_natFind ⟨i, member⟩
    cases absent.symm.trans (firstUnescaped_eq_some_iff.mpr least)
  · intro empty
    refine Option.eq_none_iff_forall_ne_some.mpr fun n found => ?_
    have member := (firstUnescaped_eq_some_iff.mp found).1
    rw [empty] at member
    exact member

/-! ## The scans -/

/-- A backslash at which nothing stands takes the byte behind it along. -/
theorem firstUnescaped_backslash (c : UInt8)
    (nothing : stands (Byte.backslash :: c :: rest) = false) :
    firstUnescaped stands false (Byte.backslash :: c :: rest) =
      (firstUnescaped stands false rest).map (· + 2) := by
  simp [firstUnescaped, nothing, Function.comp_def]

theorem firstUnescaped_of_ne (plain : b ≠ Byte.backslash) :
    firstUnescaped stands false (b :: rest) =
      if stands (b :: rest) then some 0 else (firstUnescaped stands false rest).map (· + 1) := by
  have next : (b == Byte.backslash && !false) = false := by simpa using plain
  rw [firstUnescaped, next, Bool.not_false, Bool.true_and]

theorem unescapedIndex_eq (lit : Bytes) (escaped : Bool) (bytes : Bytes) :
    unescapedIndex lit escaped bytes = firstUnescaped (lit.isPrefixOf ·) escaped bytes := by
  induction bytes generalizing escaped with
  | nil => rfl
  | cons b rest ih => rw [unescapedIndex, firstUnescaped, ih]

/-- To skip the byte behind each backslash finds the same closing quote. -/
theorem closingIndex_eq {quote : UInt8} (plain : quote ≠ Byte.backslash) (bytes : Bytes) :
    closingIndex quote bytes = firstUnescaped (·.head? == some quote) false bytes := by
  fun_induction closingIndex quote bytes with
  | case1 => rfl
  | case2 b closes => simp [firstUnescaped, closes.2]
  | case3 b stays =>
    have other : b ≠ quote := fun same => stays ⟨same ▸ plain, same⟩
    simp [firstUnescaped, other]
  | case4 c rest ih =>
    rw [firstUnescaped_backslash c (by simpa using plain.symm), ih]
  | case5 c rest backslash => rw [firstUnescaped_of_ne backslash, if_pos (by simp)]
  | case6 b c rest backslash other ih =>
    rw [firstUnescaped_of_ne backslash, if_neg (by simpa using other), ih]

/-- To skip the byte behind each backslash stops at the same byte, or at the end. -/
theorem unescapedLength_eq (cls : UInt8 → Bool) (bytes : Bytes) :
    unescapedLength cls bytes =
      (firstUnescaped (·.head?.any fun b => b != Byte.backslash && cls b) false bytes).getD
        bytes.length := by
  fun_induction unescapedLength cls bytes with
  | case1 => rfl
  | case2 b stops => simp [firstUnescaped, stops.1, stops.2]
  | case3 b goesOn =>
    have inside : (b != Byte.backslash && cls b) = false := by
      rw [Bool.and_eq_false_iff, bne_eq_false_iff_eq]
      by_contra stops
      obtain ⟨plain, stops⟩ := not_or.mp stops
      exact goesOn ⟨plain, Bool.not_eq_false _ ▸ stops⟩
    simp [firstUnescaped, inside]
  | case4 c rest ih =>
    rw [firstUnescaped_backslash c (by simp), ih]
    cases firstUnescaped _ false rest <;> simp
  | case5 b c rest backslash stops =>
    rw [firstUnescaped_of_ne backslash, if_pos (by simp [backslash, stops])]
    rfl
  | case6 b c rest backslash inside ih =>
    rw [firstUnescaped_of_ne backslash, if_neg (by simp [inside]), ih]
    cases firstUnescaped _ false (c :: rest) <;> simp

/-! ## Where the scans end -/

section Ends

variable {lit : Bytes} {quote : UInt8}

theorem unescapedIndex_eq_some_iff :
    unescapedIndex lit false bytes = some i ↔ IsLeast (bytes.unescapedPlaces (lit <+: ·)) i := by
  rw [unescapedIndex_eq, firstUnescaped_eq_some_iff,
    placesFrom_false fun _ => List.isPrefixOf_iff_prefix]

theorem unescapedIndex_eq_none_iff :
    unescapedIndex lit false bytes = none ↔ bytes.unescapedPlaces (lit <+: ·) = ∅ := by
  rw [unescapedIndex_eq, firstUnescaped_eq_none_iff,
    placesFrom_false fun _ => List.isPrefixOf_iff_prefix]

theorem closingIndex_eq_some_iff (plain : quote ≠ Byte.backslash) :
    closingIndex quote bytes = some i ↔
      IsLeast (bytes.unescapedPlaces (·.head? = some quote)) i := by
  rw [closingIndex_eq plain, firstUnescaped_eq_some_iff, placesFrom_false fun _ => beq_iff_eq]

theorem closingIndex_eq_none_iff (plain : quote ≠ Byte.backslash) :
    closingIndex quote bytes = none ↔ bytes.unescapedPlaces (·.head? = some quote) = ∅ := by
  rw [closingIndex_eq plain, firstUnescaped_eq_none_iff, placesFrom_false fun _ => beq_iff_eq]

/-- The way to the first byte of a class that is neither escaped nor a backslash, or to the
end. -/
theorem isLeast_unescapedLength_or (cls : UInt8 → Bool) (bytes : Bytes) :
    let stops := bytes.unescapedPlaces fun rest =>
      ∃ b ∈ rest.head?, b ≠ Byte.backslash ∧ cls b = true
    IsLeast stops (unescapedLength cls bytes) ∨
      stops = ∅ ∧ unescapedLength cls bytes = bytes.length := by
  intro stops
  have places : placesFrom (·.head?.any fun b => b != Byte.backslash && cls b) false bytes =
      stops := placesFrom_false fun _ => by simp [Option.any_eq_true]
  rw [unescapedLength_eq]
  cases search : firstUnescaped (·.head?.any fun b => b != Byte.backslash && cls b) false bytes with
  | none => exact .inr ⟨places ▸ firstUnescaped_eq_none_iff.mp search, rfl⟩
  | some n => exact .inl (places ▸ firstUnescaped_eq_some_iff.mp search)

/-- A quoted run reaches over its opening quote and the first closing one. -/
theorem quotedEscaped_eq_some_iff (plain : quote ≠ Byte.backslash) :
    quotedEscaped quote bytes = some n ↔
      bytes.head? = some quote ∧
        ∃ i, IsLeast (Bytes.unescapedPlaces (·.head? = some quote) bytes.tail) i ∧ n = i + 2 := by
  simp only [← closingIndex_eq_some_iff plain]
  cases bytes with
  | nil => simp [quotedEscaped]
  | cons b rest => simp [quotedEscaped, eq_comm]

theorem quotedEscaped_eq_none_iff (plain : quote ≠ Byte.backslash) :
    quotedEscaped quote bytes = none ↔
      ¬ (bytes.head? = some quote ∧
        (Bytes.unescapedPlaces (·.head? = some quote) bytes.tail).Nonempty) := by
  rw [Set.nonempty_iff_ne_empty, ne_eq, ← closingIndex_eq_none_iff plain]
  cases bytes with
  | nil => simp [quotedEscaped]
  | cons b rest => simp [quotedEscaped]

/-- The way up to a literal must not be empty. -/
theorem beforeUnescaped_eq_some_iff :
    beforeUnescaped lit bytes = some n ↔
      0 < n ∧ IsLeast (bytes.unescapedPlaces (lit <+: ·)) n := by
  simp only [beforeUnescaped, Option.bind_eq_some_iff, nonzero_eq_some,
    unescapedIndex_eq_some_iff]
  constructor
  · rintro ⟨_, least, rfl, positive⟩
    exact ⟨positive, least⟩
  · rintro ⟨positive, least⟩
    exact ⟨n, least, rfl, positive⟩

theorem beforeUnescaped_eq_none_iff :
    beforeUnescaped lit bytes = none ↔
      0 ∈ bytes.unescapedPlaces (lit <+: ·) ∨ bytes.unescapedPlaces (lit <+: ·) = ∅ := by
  rw [← unescapedIndex_eq_none_iff]
  cases search : unescapedIndex lit false bytes with
  | none => simp [beforeUnescaped, search]
  | some n =>
    have least := unescapedIndex_eq_some_iff.mp search
    have refuses : beforeUnescaped lit bytes = none ↔ n = 0 := by
      cases n <;> simp [beforeUnescaped, search]
    rw [refuses]
    constructor
    · rintro rfl
      exact .inl least.1
    · rintro (front | absent)
      · exact Nat.le_zero.mp (least.2 front)
      · cases absent

end Ends

end Scan

/-! ## At a cursor -/

namespace Primitive

variable {p : Primitive} {c : Cursor} {n : Nat}

/-- A primitive that reports how many bytes it takes succeeds with what its scan takes. -/
theorem apply_eq_some_iff (counts : ∀ unread taken, p.report unread taken = .count taken) :
    p.apply c = (.count (some n), c.advance n) ↔ p.scan c.rest = some n := by
  constructor
  · intro succeeded
    cases taken : p.scan c.rest with
    | none =>
      have failed := (failed_apply p c).trans (congrArg Option.isNone taken)
      rw [succeeded] at failed
      cases failed
    | some m =>
      rw [apply_of_some taken, counts] at succeeded
      exact Reply.count.inj (Prod.mk.inj succeeded).1
  · intro taken
    rw [apply_of_some taken, counts]

theorem apply_eq_none_iff (refusal : p.refusal = .count none) :
    p.apply c = (.count none, c) ↔ p.scan c.rest = none := by
  constructor
  · intro failed
    have reported := failed_apply p c
    rw [failed] at reported
    exact Option.isNone_iff_eq_none.mp reported.symm
  · intro refuses
    rw [apply_of_none refuses, refusal]

/-- The scans that know about backslashes share one notion of what is escaped. The way up to a
class ends at the first unescaped byte of it that is no backslash, or else at the end of the
window, and fails only if it is empty. A quoted run reaches to the first unescaped quote behind
the opening one, and fails only if there is no opening or no closing quote. The way up to a
literal ends at its first unescaped occurrence, and fails only if there is none or the cursor is
there already. -/
theorem apply_unescaped (c : Cursor) :
    (∀ cls : UInt8 → Bool,
      let stops := c.rest.unescapedPlaces fun bytes =>
        ∃ b ∈ bytes.head?, b ≠ Byte.backslash ∧ cls b = true
      ∃ n, (IsLeast stops n ∨ stops = ∅ ∧ n = c.rest.length) ∧
        (upToUnescaped cls).apply c =
          if n = 0 then (.count none, c) else (.count (some n), c.advance n)) ∧
    (∀ quote ≠ Byte.backslash,
      let closings := Bytes.unescapedPlaces (·.head? = some quote) c.rest.tail
      (∀ n, (quotedEscaped quote).apply c = (.count (some n), c.advance n) ↔
        c.peek = some quote ∧ ∃ i, IsLeast closings i ∧ n = i + 2) ∧
      ((quotedEscaped quote).apply c = (.count none, c) ↔
        ¬ (c.peek = some quote ∧ closings.Nonempty))) ∧
    ∀ lit : Bytes,
      let occurrences := c.rest.unescapedPlaces (lit <+: ·)
      (∀ n, (beforeUnescaped lit).apply c = (.count (some n), c.advance n) ↔
        0 < n ∧ IsLeast occurrences n) ∧
      ((beforeUnescaped lit).apply c = (.count none, c) ↔
        0 ∈ occurrences ∨ occurrences = ∅) := by
  refine ⟨fun cls => ?_, fun quote plain => ⟨fun n => ?_, ?_⟩, fun lit => ⟨fun n => ?_, ?_⟩⟩
  · refine ⟨_, Scan.isLeast_unescapedLength_or cls c.rest, ?_⟩
    split
    · exact (apply_eq_none_iff rfl).mpr (if_pos ‹_›)
    · exact (apply_eq_some_iff fun _ _ => rfl).mpr (if_neg ‹_›)
  · exact (apply_eq_some_iff fun _ _ => rfl).trans (Scan.quotedEscaped_eq_some_iff plain)
  · exact (apply_eq_none_iff rfl).trans (Scan.quotedEscaped_eq_none_iff plain)
  · exact (apply_eq_some_iff fun _ _ => rfl).trans Scan.beforeUnescaped_eq_some_iff
  · exact (apply_eq_none_iff rfl).trans Scan.beforeUnescaped_eq_none_iff

/-- Behind an escaped quote and an escaped backslash the run closes. A window that ends right
behind the first of the two backslashes holds no closing quote. -/
theorem apply_unescaped_doubledBackslash :
    let text := Bytes.ofText "x\"\\\"\\\\\"y"
    let whole := Cursor.within text 1 8
    let short := Cursor.within text 1 5
    Byte.doubleQuote ≠ Byte.backslash ∧
      (quotedEscaped Byte.doubleQuote).apply whole = (.count (some 6), whole.advance 6) ∧
      (quotedEscaped Byte.doubleQuote).apply short = (.count none, short) := by
  intro text whole short
  have plain : Byte.doubleQuote ≠ Byte.backslash := by decide
  have closes :
      IsLeast (Bytes.unescapedPlaces (·.head? = some Byte.doubleQuote) whole.rest.tail) 4 :=
    (Scan.closingIndex_eq_some_iff plain).mp rfl
  have stays : Bytes.unescapedPlaces (·.head? = some Byte.doubleQuote) short.rest.tail = ∅ :=
    (Scan.closingIndex_eq_none_iff plain).mp rfl
  refine ⟨plain, ?_, ?_⟩
  · exact (((apply_unescaped whole).2.1 _ plain).1 6).mpr ⟨rfl, 4, closes, rfl⟩
  · exact ((apply_unescaped short).2.1 _ plain).2.mpr fun ⟨_, occupied⟩ => occupied.ne_empty stays

end Primitive

end Octets
