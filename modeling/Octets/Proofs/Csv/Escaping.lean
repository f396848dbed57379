import Octets.Proofs.Csv.Written

/-!
# Escaped fields come back

A field is escaped between double quotes if it holds a quote, a comma or a line feed, and stays
as it is otherwise. Unescaping takes the quotes around it off and makes one of every pair inside;
what was not escaped begins with no quote and is left alone. The reader does the same to a field
inside of a record, where it has to find the closing quote first.

## Main results

* `unescape_escape` — unescaping gives the field back
* `escape_undone` — so does the reader, which stops right behind the field
-/

namespace Octets.Csv

variable {chars : List Char}

/-- Between quotes, quotes are in pairs. -/
theorem unescapeChars_quoted (chars : List Char) :
    unescapeChars ('"' :: doubleQuotes chars ++ ['"']) = chars := by
  have closed : (doubleQuotes chars ++ ['"']).getLast? = some '"' := List.getLast?_concat
  have inner : (doubleQuotes chars ++ ['"']).dropLast = doubleQuotes chars := List.dropLast_concat
  rw [List.cons_append, unescapeChars, if_pos closed, inner, undoubleQuotes_doubleQuotes]

/-- What begins with no quote is taken as it is. -/
theorem unescapeChars_of_head? (unquoted : '"' ∉ chars.head?) : unescapeChars chars = chars := by
  unfold unescapeChars
  split
  · exact absurd rfl unquoted
  · rfl

theorem unescapeChars_escapeChars (chars : List Char) :
    unescapeChars (escapeChars chars) = chars := by
  unfold escapeChars
  by_cases quotes : chars.any needsQuotes = true
  · rw [if_pos quotes, unescapeChars_quoted]
  · rw [if_neg quotes]
    exact unescapeChars_of_head? fun first =>
      quotes (List.any_eq_true.mpr ⟨_, List.mem_of_mem_head? first, rfl⟩)

theorem unescape_escape (field : String) : unescape (escape field) = field := by
  rw [unescape, escape, String.toList_ofList, unescapeChars_escapeChars, String.ofList_toList]

/-- An escaped field is unescaped to the field, and the reader reads it as the field, too,
whatever stands behind its end, and leaves what stands there. -/
theorem escape_undone (field : String) :
    unescape (escape field) = field ∧ escape (unescape (escape field)) = escape field ∧
      ∀ behind : Bytes, (∀ b ∈ behind.head?, b = Byte.comma ∨ b = Byte.lf) →
        readField (Bytes.ofText (escape field) ++ behind) = some (field, behind) := by
  refine ⟨unescape_escape field, congrArg escape (unescape_escape field), fun behind ends => ?_⟩
  exact (writtenField_escape field).readField_append fun b member => by
    obtain rfl | rfl := ends b member <;> rfl

/-- Runs of quotes in front, in the middle and at the end, and no quotes around what needs none. -/
theorem escape_undone_quoteRuns :
    let field := "\"\"say \"a, b\"\"\"\n\""
    let behind := Bytes.ofText ",plain\n"
    (∀ b ∈ behind.head?, b = Byte.comma ∨ b = Byte.lf) ∧
      unescape (escape field) = field ∧
      readField (Bytes.ofText (escape field) ++ behind) = some (field, behind) := by
  intro field behind
  have ends : ∀ b ∈ behind.head?, b = Byte.comma ∨ b = Byte.lf := by
    intro b member
    exact .inl (Option.mem_some_iff.mp member).symm
  have undone := escape_undone field
  exact ⟨ends, undone.1, undone.2.2 behind ends⟩

end Octets.Csv
