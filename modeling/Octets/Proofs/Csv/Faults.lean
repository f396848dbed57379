import Octets.Proofs.Csv.Fields
import Octets.Proofs.Csv.Reachable

/-!
# What can be wrong with the bytes of a table

A field that ends leaves a comma or a line feed behind it, or nothing, in whichever way it is
written. So a record can only fail at a quote that is not closed, and no byte can ever be astray
behind a field. This leaves five ways for bytes to be no table. Those that are one give a header,
and rows as wide as that, and no calls take this away.

## Main definitions

* `Fault.IsOfBytes` — the faults of bytes that are no table

## Main results

* `isFieldEnd_of_readField` — what stands behind a field
* `exists_openQuote_of_readRecord` — how reading a record fails
* `Table.isOfBytes_of_parse` — how parsing fails
* `Table.wellFormed_foldl_edit` — what any calls keep
* `Table.wellFormed_or_isOfBytes` — every table is well-formed, and what is none has such a fault
-/

namespace Octets.Csv

variable {bytes behind input : Bytes} {fault : Fault} {stop : ReadFault}

/-! ## Fields and records -/

theorem isFieldEnd_of_plainBytes (bytes : Bytes) :
    ∀ b ∈ (plainBytes bytes).2.head?, isFieldEnd b = true := by
  intro b first
  have ends := List.head?_dropWhile_not (fun b => !isFieldEnd b) bytes
  rw [show (bytes.dropWhile fun b => !isFieldEnd b).head? = some b from first] at ends
  simpa using ends

/-- Whatever follows a closing quote is read up to the end of the field, too. -/
theorem isFieldEnd_of_fieldBytes {field : Bytes}
    (read : fieldBytes bytes = some (field, behind)) :
    ∀ b ∈ behind.head?, isFieldEnd b = true := by
  unfold fieldBytes at read
  split at read
  · cases read
    rintro b ⟨⟩
  · rename_i b rest
    split at read
    · split at read
      · cases read
      · cases read
        exact isFieldEnd_of_plainBytes _
    · have plain := isFieldEnd_of_plainBytes (b :: rest)
      rwa [Option.some.inj read] at plain

theorem isFieldEnd_of_readField {field : String}
    (read : readField bytes = some (field, behind)) :
    ∀ b ∈ behind.head?, isFieldEnd b = true := by
  rw [readField_eq] at read
  obtain ⟨_, found, same⟩ := Option.map_eq_some_iff.mp read
  cases same
  exact isFieldEnd_of_fieldBytes found

theorem eq_lf_of_isFieldEnd {b : UInt8} (ends : isFieldEnd b = true) (ne : b ≠ Byte.comma) :
    b = Byte.lf := by
  rw [isFieldEnd, Bool.or_eq_true, beq_iff_eq, beq_iff_eq] at ends
  exact ends.resolve_left ne

/-- A record only fails at a quote that is not closed, in any of its fields. -/
theorem exists_openQuote_of_readRecord (refused : readRecord bytes = .error stop) :
    ∃ field, stop = .openQuote field := by
  fun_induction readRecord bytes generalizing stop with
  | case1 bytes =>
    cases refused
    exact ⟨bytes, rfl⟩
  | case2 | case4 | case5 => cases refused
  | case3 =>
    rename_i deeper _ ih
    cases refused
    exact ih deeper
  | case6 =>
    -- The byte behind the field would have to end it, and yet be neither of the two that do.
    rename_i ne_comma ne_lf
    have read : readField _ = some (_, _ :: _) := ‹_›
    exact absurd (eq_lf_of_isFieldEnd (isFieldEnd_of_readField read _ rfl) ne_comma) ne_lf

/-! ## Tables -/

/-- The faults of bytes that are no table. A row is at fault for its width if it is wider or
less wide than the header. -/
inductive Fault.IsOfBytes : Fault → Prop
  | serialId : IsOfBytes .serialId
  | newLine : IsOfBytes .newLine
  | emptyHeader : IsOfBytes .emptyHeader
  | rowWidth (line : Nat) {expected found : Nat} :
      found ≠ expected → IsOfBytes (.rowWidth line expected found)
  | unterminatedQuote (line : Nat) : IsOfBytes (.unterminatedQuote line)

namespace Table

theorem isOfBytes_faultAt (refused : readRecord bytes = .error stop) (input : Bytes) :
    (faultAt input stop).IsOfBytes := by
  obtain ⟨field, rfl⟩ := exists_openQuote_of_readRecord refused
  exact .unterminatedQuote _

theorem isOfBytes_of_readRows {width : Nat} {rest : Bytes}
    (refused : readRows input width rest = .error fault) : fault.IsOfBytes := by
  fun_induction readRows input width rest generalizing fault with
  | case1 | case5 => cases refused
  | case2 =>
    rename_i stopped
    cases refused
    exact isOfBytes_faultAt stopped input
  | case3 =>
    rename_i misfits _
    cases refused
    exact .rowWidth _ misfits
  | case4 =>
    rename_i deeper ih
    cases refused
    exact ih deeper

theorem isOfBytes_of_parse (refused : parse input = .error fault) : fault.IsOfBytes := by
  -- The stages of parsing from the front, each of which may be the one that fails.
  simp only [parse] at refused
  split at refused
  · cases refused
    exact .serialId
  split at refused
  · cases refused
    exact .newLine
  split at refused
  · cases refused
    exact .newLine
  split at refused
  · cases refused
    exact .emptyHeader
  split at refused
  · rename_i stopped
    cases refused
    exact isOfBytes_faultAt stopped input
  split at refused
  · rename_i stopped
    cases refused
    exact isOfBytes_of_readRows stopped
  · cases refused

/-- Any calls, failing ones and ones that run out of ids included. -/
theorem wellFormed_foldl_edit {t : Table} (wf : t.WellFormed) (edits : List Edit) :
    (edits.foldl edit t).WellFormed := by
  induction edits generalizing t with
  | nil => exact wf
  | cons e edits ih => exact ih (wf.edit e)

/-- Whatever a table is made of and whatever is called on it, it has a header, and rows as wide
as that. Bytes that are no table lack the serial id, the line feed behind it or the header, have
a row of another width, or have a quote that is not closed, and nothing else is wrong with
them. -/
theorem wellFormed_or_isOfBytes :
    (∀ origin, IsOrigin origin → ∀ edits : List Edit, (edits.foldl edit origin).WellFormed) ∧
    ∀ input, (∃ t, parse input = .ok t) ∨ ∃ fault, parse input = .error fault ∧
      fault.IsOfBytes ∧ fault ≠ .strayByte := by
  refine ⟨fun origin made edits => ?_, fun input => ?_⟩
  · exact wellFormed_foldl_edit made.wellFormed edits
  · cases parsed : parse input with
    | ok t => exact .inl ⟨t, rfl⟩
    | error fault =>
      have ofBytes := isOfBytes_of_parse parsed
      refine .inr ⟨fault, rfl, ofBytes, ?_⟩
      rintro rfl
      cases ofBytes

/-- Text behind a closing quote, and calls of which two fail; then a doubled quote at the end. -/
theorem wellFormed_or_isOfBytes_doubledQuote :
    let input := Bytes.ofText "2\nid,name\n0,\"x\"\"\"y\n1,\n"
    let edits : List Edit :=
      [.insert ["p", "q"], .put "0" ["z"], .setField "1" 2 "w", .erase "1", .insert ["v"]]
    (∃ t, parse input = .ok t ∧ t.rows = [["0", "x\"y"], ["1", ""]] ∧
      (edits.foldl edit t).rows = [["0", "z"], ["2", "v"]] ∧ (edits.foldl edit t).WellFormed) ∧
    ∃ fault, parse (Bytes.ofText "2\nid,name\n0,\"x\"\"") = .error fault ∧
      fault.IsOfBytes ∧ fault ≠ .strayByte := by
  intro input edits
  obtain ⟨keeps, fails⟩ := wellFormed_or_isOfBytes
  have read : (parse input).toOption =
      some ⟨2, ["id", "name"], [["0", "x\"y"], ["1", ""]]⟩ := by decide +kernel
  have unread : (parse (Bytes.ofText "2\nid,name\n0,\"x\"\"")).toOption = none := by
    decide +kernel
  constructor
  · obtain ⟨t, parsed⟩ | ⟨fault, parsed, _⟩ := fails input
    · rw [parsed, Except.toOption, Option.some.injEq] at read
      subst read
      exact ⟨_, parsed, rfl, by decide +kernel, keeps _ (.inr ⟨input, parsed⟩) edits⟩
    · rw [parsed] at read
      cases read
  · obtain ⟨t, parsed⟩ | failed := fails (Bytes.ofText "2\nid,name\n0,\"x\"\"")
    · rw [parsed] at unread
      cases unread
    · exact failed

end Table

end Octets.Csv
