import Octets.Cursor.Primitive
import Octets.Proofs.Scan

/-!
# Reading is all or nothing

A primitive that refuses leaves the whole cursor as it was, its milestone included. One that
applies moves the position and nothing else, by as many bytes as it reports, and stays in the
window. Speculation rests on this: what has failed need not be taken back.

## Main definitions

* `Primitive.refusal` — what a primitive reports when it does not apply
* `Primitive.Reports` — what it reports when it has taken some bytes

## Main results

* `Primitive.isBounded_scan` — no primitive takes more than the unread bytes
* `Primitive.apply_transactional` — every primitive is all or nothing
-/

namespace Octets.Primitive

variable {p : Primitive} {c : Cursor} {n : Nat}

/-- What a primitive reports when it does not apply. -/
def refusal : Primitive → Reply
  | byte _ => .byte none
  | test _ | literal _ | either _ _ | keyword _ => .flag false
  | _ => .count none

/-- What a primitive may report when it has taken `n` bytes at a cursor. Whatever stands for
fixed bytes takes as many; an ending takes the rest of the window, and which ending it was is
reported. All others report their count, and only the way up to or through a literal may be
zero bytes long. -/
def Reports (p : Primitive) (c : Cursor) (n : Nat) (reply : Reply) : Prop :=
  match p with
  | byte _ => n = 1 ∧ ∃ b, c.peek = some b ∧ reply = .byte (some b)
  | test _ => n = 1 ∧ reply = .flag true
  | literal lit | keyword lit => n = lit.length ∧ reply = .flag true
  | either a b => (a.length = b.length → n = a.length) ∧ reply = .flag true
  | before _ | through _ => reply = .count (some n)
  | suffix endings => n = c.stop - c.pos ∧ ∃ i < endings.length, reply = .count (some i)
  | _ => reply = .count (some n) ∧ 0 < n

/-- No primitive takes more than the unread bytes. -/
theorem isBounded_scan (p : Primitive) : p.scan.IsBounded := by
  cases p with
  | byte cls => exact Scan.isBounded_byte cls
  | test cls => exact Scan.isBounded_byte cls
  | literal lit => exact Scan.isBounded_literal lit
  | either a b => exact fun _ _ takes => (Scan.either_eq_some takes).2
  | keyword lit =>
    intro bytes n takes
    obtain ⟨front, rfl⟩ := Scan.keyword_eq_some takes
    exact front.length_le
  | run cls => exact Scan.isBounded_run cls
  | upTo cls => exact Scan.isBounded_run _
  | upToUnescaped cls => exact Scan.isBounded_upToUnescaped cls
  | before lit => exact Scan.isBounded_before lit
  | through lit => exact Scan.isBounded_through lit
  | beforeUnescaped lit => exact Scan.isBounded_beforeUnescaped lit
  | quoted quote => exact fun _ _ takes => (Scan.quoted_eq_some takes).2
  | quotedEscaped quote => exact fun _ _ takes => (Scan.quotedEscaped_eq_some takes).2
  | entry t => exact Scan.isBounded_entry t
  | beforeEntry t => exact Scan.isBounded_beforeEntry t
  | throughEntry t => exact Scan.isBounded_throughEntry t
  | entries t => exact Scan.isBounded_entries t
  | keywordEntry t => exact Scan.isBounded_keywordEntry t
  | suffix endings =>
    intro bytes n takes
    obtain ⟨i, _, rfl⟩ := Option.map_eq_some_iff.mp takes
    exact Nat.le_refl _

theorem apply_of_none (refuses : p.scan c.rest = none) : p.apply c = (p.refusal, c) := by
  rw [apply, Cursor.take_eq_of_none refuses]
  cases p with
  | suffix endings =>
    have absent : Scan.suffix? endings c.rest = none := Option.map_eq_none_iff.mp refuses
    simp only [report, refusal, absent]
  | _ => rfl

theorem apply_of_some (takes : p.scan c.rest = some n) :
    p.apply c = (p.report c.rest (some n), c.advance n) := by
  rw [apply, Cursor.take_eq_of_some takes]

/-- What is reported fits what was taken. -/
theorem reports_report (wf : c.WellFormed) (takes : p.scan c.rest = some n) :
    p.Reports c n (p.report c.rest (some n)) := by
  cases p with
  | byte cls =>
    obtain ⟨rfl, b, rest, unread, _⟩ := Scan.byte_eq_some takes
    have next : c.peek = some b := congrArg List.head? unread
    exact ⟨rfl, b, next, congrArg Reply.byte next⟩
  | test cls => exact ⟨(Scan.byte_eq_some takes).1, rfl⟩
  | literal lit => exact ⟨(Scan.literal_eq_some.mp takes).2.symm, rfl⟩
  | keyword lit => exact ⟨(Scan.keyword_eq_some takes).2.symm, rfl⟩
  | either a b =>
    refine ⟨fun same => ?_, rfl⟩
    rw [(Scan.either_eq_some takes).1, ← same, Nat.min_self]
  | before lit => rfl
  | through lit => rfl
  | run cls => exact ⟨rfl, Scan.takesBytes_nonzero _ _ _ takes⟩
  | upTo cls => exact ⟨rfl, Scan.takesBytes_nonzero _ _ _ takes⟩
  | upToUnescaped cls => exact ⟨rfl, Scan.takesBytes_nonzero _ _ _ takes⟩
  | beforeUnescaped lit => exact ⟨rfl, Scan.takesBytes_bind_nonzero _ _ _ takes⟩
  | quoted quote => exact ⟨rfl, Nat.zero_lt_of_lt (Scan.quoted_eq_some takes).1⟩
  | quotedEscaped quote => exact ⟨rfl, Nat.zero_lt_of_lt (Scan.quotedEscaped_eq_some takes).1⟩
  | entry t => exact ⟨rfl, Scan.takesBytes_bind_nonzero _ _ _ takes⟩
  | beforeEntry t => exact ⟨rfl, Scan.takesBytes_bind_nonzero _ _ _ takes⟩
  | throughEntry t => exact ⟨rfl, Scan.takesBytes_bind_nonzero _ _ _ takes⟩
  | entries t => exact ⟨rfl, Scan.takesBytes_nonzero _ _ _ takes⟩
  | keywordEntry t =>
    exact ⟨rfl, Scan.takesBytes_bind_nonzero
      (fun bytes => (t.matchLengths bytes).find? fun n =>
        !Scan.beginsWithIdentifier (bytes.drop n)) _ _ takes⟩
  | suffix endings =>
    obtain ⟨i, found, rfl⟩ := Option.map_eq_some_iff.mp takes
    obtain ⟨inside, _⟩ := List.findIdx?_eq_some_iff_getElem.mp found
    exact ⟨wf.length_rest, i, inside, congrArg Reply.count found⟩

/-- A primitive that fails leaves the cursor as it was. One that succeeds only moves the
position, by what it reports and not beyond the window. -/
theorem apply_transactional (p : Primitive) (wf : c.WellFormed) :
    ((p.apply c).1.failed = true → p.apply c = (p.refusal, c)) ∧
      ((p.apply c).1.failed = false →
        ∃ n, (p.apply c).2 = c.advance n ∧ c.pos + n ≤ c.stop ∧
          p.Reports c n (p.apply c).1) := by
  rw [failed_apply]
  constructor
  · intro failed
    exact apply_of_none (Option.isNone_iff_eq_none.mp failed)
  · intro succeeded
    cases takes : p.scan c.rest with
    | none =>
      rw [takes] at succeeded
      cases succeeded
    | some n =>
      have inside := (wf.advance (p.isBounded_scan _ _ takes)).2.1
      rw [apply_of_some takes]
      exact ⟨n, rfl, inside, reports_report wf takes⟩

/-- In a window that ends inside of a quoted run, the quotes do not close; where it ends
behind it, they are read with their escapes. -/
theorem apply_transactional_quotedEscaped :
    let quoted := Bytes.ofText "x\"a\\\"b\"c"
    let short := { Cursor.within quoted 1 6 with milestone := some 3 }
    let whole := { Cursor.within quoted 1 8 with milestone := some 3 }
    (short.WellFormed ∧
      (quotedEscaped Byte.doubleQuote).apply short = (.count none, short)) ∧
    (whole.WellFormed ∧
      ∃ n, ((quotedEscaped Byte.doubleQuote).apply whole).2 = whole.advance n ∧
        whole.pos + n ≤ 8 ∧ (Reply.count (some 6) = .count (some n) ∧ 0 < n)) := by
  intro quoted short whole
  have short_wf : short.WellFormed := by decide
  have whole_wf : whole.WellFormed := by decide
  refine ⟨⟨short_wf, ?_⟩, whole_wf, ?_⟩
  · exact (apply_transactional (quotedEscaped Byte.doubleQuote) short_wf).1 rfl
  · exact (apply_transactional (quotedEscaped Byte.doubleQuote) whole_wf).2 rfl

end Octets.Primitive
