import Mathlib.Data.List.Chain
import Octets.Proofs.Glob.Language

/-!
# Written patterns

How an item is written down as a part of a pattern: a backslash may stand in front of any byte
that means itself, and must stand in front of those that would mean something else there. An
item may be written down in several ways, and each of them can be told from what stands behind
it: a run of bytes ends at the first byte that is special there, a single member of a set is not
followed by a dash, and an item behind a star does not begin with another star.

## Main definitions

* `Glob.IsEscaped` — bytes with backslashes where there have to be some
* `Glob.WrittenMembers`, `Glob.WrittenNames` — what stands between brackets and between braces
* `Item.IsWritten`, `Glob.IsWritten` — an item, and several items, as they are written
* `Glob.IsApart` — items that cannot run into each other

## Main results

* `IsEscaped.unescape`, `IsEscaped.unescapedLength` — such bytes are read back, up to their end
* `IsWritten.not_mem` — a written pattern is one line
-/

namespace Octets

namespace Scan

variable {cls : UInt8 → Bool} {b : UInt8} {rest : Bytes}

theorem unescapedLength_of_class (ends : cls b = true) (plain : b ≠ Byte.backslash) :
    unescapedLength cls (b :: rest) = 0 := by
  cases rest <;> simp [unescapedLength, ends, plain]

theorem unescapedLength_plain (plain : b ≠ Byte.backslash) (inside : cls b = false) :
    unescapedLength cls (b :: rest) = 1 + unescapedLength cls rest := by
  cases rest <;> simp [unescapedLength, inside, plain, Nat.add_comm]

theorem unescapedLength_escaped :
    unescapedLength cls (Byte.backslash :: b :: rest) = 2 + unescapedLength cls rest := by
  simp [unescapedLength, Nat.add_comm]

end Scan

namespace Glob

/-! ## Written items -/

/-- Bytes as they are written down: with a backslash in front of each special one, of each
backslash, and of any others. There is no line feed among them. -/
inductive IsEscaped (special : UInt8 → Bool) : Bytes → Bytes → Prop
  | nil : IsEscaped special [] []
  | plain {b : UInt8} {w text : Bytes} :
      special b = false → b ≠ Byte.backslash → b ≠ Byte.lf → IsEscaped special w text →
        IsEscaped special (b :: w) (b :: text)
  | escaped {b : UInt8} {w text : Bytes} :
      b ≠ Byte.lf → IsEscaped special w text →
        IsEscaped special (b :: w) (Byte.backslash :: b :: text)

/-- The bytes that mean something else than themselves outside of groups. -/
def isSpecial (b : UInt8) : Bool :=
  b == Byte.asterisk || b == Byte.question || b == Byte.leftBracket || b == Byte.leftBrace

/-- The bytes that mean something else than themselves in a set. -/
def isSetMark (b : UInt8) : Bool :=
  b == Byte.rightBracket || b == Byte.minus || isNegation b

/-- The ends of a range: two small letters, two capitals or two digits. -/
def IsRange (low high : UInt8) : Prop :=
  low ≤ high ∧ ∃ cls ∈ [Byte.isLower, Byte.isUpper, Byte.isDigit], cls low = true ∧ cls high = true

/-- The members of a set: single bytes and ranges. -/
inductive WrittenMembers : List (UInt8 × UInt8) → Bytes → Prop
  | nil : WrittenMembers [] []
  | byte {b : UInt8} {text rest : Bytes} {ranges : List (UInt8 × UInt8)} :
      IsEscaped isSetMark [b] text → WrittenMembers ranges rest →
        WrittenMembers ((b, b) :: ranges) (text ++ rest)
  | range {low high : UInt8} {rest : Bytes} {ranges : List (UInt8 × UInt8)} :
      IsRange low high → WrittenMembers ranges rest →
        WrittenMembers ((low, high) :: ranges) (low :: Byte.minus :: high :: rest)

/-- The mark behind the bracket of a set. -/
inductive WrittenMark : Bool → Bytes → Prop
  | absent : WrittenMark false []
  | present {b : UInt8} : isNegation b = true → WrittenMark true [b]

/-- The names of an alternation, of which there is at least one and none is empty. -/
inductive WrittenNames : List Bytes → Bytes → Prop
  | one {name text : Bytes} :
      name ≠ [] → IsEscaped isSeparator name text → WrittenNames [name] text
  | cons {name text rest : Bytes} {names : List Bytes} :
      name ≠ [] → IsEscaped isSeparator name text → WrittenNames names rest →
        WrittenNames (name :: names) (text ++ Byte.comma :: rest)

/-- An item as it is written. -/
inductive Item.IsWritten : Item → Bytes → Prop
  | literal {w text : Bytes} : IsEscaped isSpecial w text → IsWritten (literal w) text
  | star : IsWritten anyRun [Byte.asterisk]
  | stars : IsWritten anyRun [Byte.asterisk, Byte.asterisk]
  | anyByte : IsWritten anyByte [Byte.question]
  | set {negated : Bool} {ranges : List (UInt8 × UInt8)} {mark text : Bytes} :
      WrittenMark negated mark → WrittenMembers ranges text → ranges ≠ [] →
        IsWritten (set negated ranges)
          (Byte.leftBracket :: (mark ++ text) ++ [Byte.rightBracket])
  | alternation {names : List Bytes} {text : Bytes} :
      WrittenNames names text →
        IsWritten (alternation names) (Byte.leftBrace :: text ++ [Byte.rightBrace])

/-- Items as they are written, one behind the other. -/
inductive IsWritten : List Item → Bytes → Prop
  | nil : IsWritten [] []
  | cons {item : Item} {items : List Item} {text rest : Bytes} :
      item.IsWritten text → IsWritten items rest → IsWritten (item :: items) (text ++ rest)

/-- Whether an item begins with another byte than a star. -/
def Item.Begins : Item → Prop
  | anyRun => False
  | literal text => text ≠ []
  | _ => True

/-- Items that are told apart when they are written: behind a star comes no other one. -/
def IsApart (items : List Item) : Prop :=
  items.IsChain fun item next => item = .anyRun → next.Begins

variable {text behind rest : Bytes} {first : UInt8}

theorem isSpecial_eq_false_iff :
    isSpecial first = false ↔ first ≠ Byte.asterisk ∧ first ≠ Byte.question ∧
      first ≠ Byte.leftBracket ∧ first ≠ Byte.leftBrace := by
  simp [isSpecial, and_assoc]

theorem isSetMark_eq_false_iff :
    isSetMark first = false ↔
      first ≠ Byte.rightBracket ∧ first ≠ Byte.minus ∧ isNegation first = false := by
  simp [isSetMark, and_assoc]

/-! ## Backslashes -/

theorem unescape_plain {b : UInt8} (plain : b ≠ Byte.backslash) (more : Bytes) :
    unescape (b :: more) = b :: unescape more := by
  cases more <;> simp [unescape, plain]

theorem unescape_escaped (b : UInt8) (more : Bytes) :
    unescape (Byte.backslash :: b :: more) = b :: unescape more := by
  simp [unescape]

theorem IsEscaped.unescape {special : UInt8 → Bool} {w : Bytes}
    (written : IsEscaped special w text) : unescape text = w := by
  induction written with
  | nil => rfl
  | plain _ unescaped _ _ ih => rw [unescape_plain unescaped, ih]
  | escaped _ _ ih => rw [unescape_escaped, ih]

/-- A single byte is written down as it is or with a backslash. -/
theorem IsEscaped.singleton {special : UInt8 → Bool}
    (written : IsEscaped special [first] text) :
    special first = false ∧ first ≠ Byte.backslash ∧ text = [first] ∨
      text = [Byte.backslash, first] := by
  cases written with
  | plain plain unescaped _ none =>
    cases none
    exact .inl ⟨plain, unescaped, rfl⟩
  | escaped _ none =>
    cases none
    exact .inr rfl

/-- A run ends behind the bytes that are written down, if a special one comes there. -/
theorem IsEscaped.unescapedLength {special : UInt8 → Bool} {w : Bytes}
    (written : IsEscaped special w text) (ends : special first = true)
    (plain : first ≠ Byte.backslash) :
    Scan.unescapedLength special (text ++ first :: rest) = text.length := by
  induction written with
  | nil => exact Scan.unescapedLength_of_class ends plain
  | plain inside unescaped _ _ ih =>
    rw [List.cons_append, Scan.unescapedLength_plain unescaped inside, ih, List.length_cons,
      Nat.add_comm]
  | escaped _ _ ih =>
    rw [List.cons_append, List.cons_append, Scan.unescapedLength_escaped, ih, List.length_cons,
      List.length_cons, Nat.add_comm]

/-! ## Ranges -/

theorem IsRange.isRange {low high : UInt8} (range : IsRange low high) :
    isRange low high = true := by
  obtain ⟨ascend, cls, member, low_in, high_in⟩ := range
  simp only [List.mem_cons, List.not_mem_nil, or_false] at member
  obtain rfl | rfl | rfl := member <;> simp [Glob.isRange, low_in, high_in, ascend]

/-- Letters and digits mean themselves everywhere. -/
theorem plain_of_isAlphaNumeric {b : UInt8} (inside : Byte.isAlphaNumeric b = true) :
    isSetMark b = false ∧ b ≠ Byte.backslash ∧ b ≠ Byte.lf := by
  refine ⟨?_, ?_, ?_⟩
  · refine Bool.eq_false_iff.mpr fun mark => ?_
    simp only [isSetMark, isNegation, Bool.or_eq_true, beq_iff_eq] at mark
    obtain (rfl | rfl) | rfl | rfl := mark <;> exact absurd inside (by decide)
  · rintro rfl
    exact absurd inside (by decide)
  · rintro rfl
    exact absurd inside (by decide)

theorem IsRange.isAlphaNumeric {low high : UInt8} (range : IsRange low high) :
    Byte.isAlphaNumeric low = true ∧ Byte.isAlphaNumeric high = true := by
  obtain ⟨_, cls, member, low_in, high_in⟩ := range
  simp only [List.mem_cons, List.not_mem_nil, or_false] at member
  obtain rfl | rfl | rfl := member <;>
    simp [Byte.isAlphaNumeric, Byte.isAlpha, low_in, high_in]

/-! ## What an item does not begin with -/

/-- In front of what follows the members, and of any member, stands no dash. -/
theorem WrittenMembers.head?_ne_minus {ranges : List (UInt8 × UInt8)}
    (written : WrittenMembers ranges text) (behind : Bytes) :
    (text ++ Byte.rightBracket :: behind).head? ≠ some Byte.minus := by
  cases written with
  | nil => simp +decide
  | byte byte _ =>
    obtain ⟨plain, -, rfl⟩ | rfl := byte.singleton
    · simpa using (isSetMark_eq_false_iff.mp plain).2.1
    · simp +decide
  | range range _ =>
    have plain := (plain_of_isAlphaNumeric range.isAlphaNumeric.1).1
    simpa using (isSetMark_eq_false_iff.mp plain).2.1

theorem Item.IsWritten.head?_ne_asterisk {item : Item} (written : item.IsWritten text)
    (begins : item.Begins) : (text ++ behind).head? ≠ some Byte.asterisk := by
  cases written with
  | literal written =>
    cases written with
    | nil => exact absurd rfl begins
    | plain plain _ _ _ => simpa using (isSpecial_eq_false_iff.mp plain).1
    | escaped => simp +decide
  | star => cases begins
  | stars => cases begins
  | anyByte => simp +decide
  | set => simp +decide
  | alternation => simp +decide

/-! ## Lines -/

theorem IsEscaped.not_mem {special : UInt8 → Bool} {w : Bytes}
    (written : IsEscaped special w text) : Byte.lf ∉ text := by
  induction written with
  | nil => simp
  | plain _ _ clean _ ih => simp [Ne.symm clean, ih]
  | escaped clean _ ih => simp +decide [Ne.symm clean, ih]

theorem WrittenMembers.not_mem {ranges : List (UInt8 × UInt8)}
    (written : WrittenMembers ranges text) : Byte.lf ∉ text := by
  induction written with
  | nil => simp
  | byte byte _ ih => simp [byte.not_mem, ih]
  | range range _ ih =>
    have low := (plain_of_isAlphaNumeric range.isAlphaNumeric.1).2.2
    have high := (plain_of_isAlphaNumeric range.isAlphaNumeric.2).2.2
    simp +decide [Ne.symm low, Ne.symm high, ih]

theorem WrittenNames.not_mem {names : List Bytes} (written : WrittenNames names text) :
    Byte.lf ∉ text := by
  induction written with
  | one _ name => exact name.not_mem
  | cons _ name _ ih => simp +decide [name.not_mem, ih]

theorem Item.IsWritten.not_mem {item : Item} (written : item.IsWritten text) :
    Byte.lf ∉ text := by
  cases written with
  | literal written => exact written.not_mem
  | star => decide
  | stars => decide
  | anyByte => decide
  | set marked written _ =>
    have mark : ∀ {negated mark}, WrittenMark negated mark → Byte.lf ∉ mark := by
      rintro _ _ (_ | negates)
      · simp
      · rw [List.mem_singleton]
        rintro rfl
        exact absurd negates (by decide)
    simp +decide [mark marked, written.not_mem]
  | alternation written => simp +decide [written.not_mem]

/-- In no item stands a line feed. -/
theorem IsWritten.not_mem {items : List Item} (written : IsWritten items text) :
    Byte.lf ∉ text := by
  induction written with
  | nil => simp
  | cons item _ ih => simp [item.not_mem, ih]

end Glob

end Octets
