import Octets.Text.Utf8

/-!
# Fields and records as text

How a field of a table is written: as it is, or between double quotes with every
quote inside doubled, when it holds a quote, a comma or a line feed. A record is
its fields with commas in between and a line feed at the end. A record of one
empty field is written as a pair of quotes, since an empty line is no record.

## Main definitions

* `Csv.escape`, `Csv.unescape` — a field as it is written, and back
* `Csv.writeRecord` — a record as it is written
-/

namespace Octets.Csv

/-- The characters that a field cannot hold without quotes. -/
def needsQuotes (c : Char) : Bool := c == '"' || c == ',' || c == '\n'

/-- Every double quote doubled. -/
def doubleQuotes : List Char → List Char
  | [] => []
  | c :: rest => if c = '"' then '"' :: '"' :: doubleQuotes rest else c :: doubleQuotes rest

/-- Every pair of double quotes made one, from the front. -/
def undoubleQuotes : List Char → List Char
  | [] => []
  | [c] => [c]
  | c :: d :: rest =>
    if c = '"' ∧ d = '"' then '"' :: undoubleQuotes rest else c :: undoubleQuotes (d :: rest)

/-- A field as it is written. -/
def escapeChars (field : List Char) : List Char :=
  if field.any needsQuotes then '"' :: doubleQuotes field ++ ['"'] else field

/-- What a written field holds. What does not begin and end with a double quote of
its own is taken as it is. -/
def unescapeChars (written : List Char) : List Char :=
  match written with
  | '"' :: rest => if rest.getLast? = some '"' then undoubleQuotes rest.dropLast else written
  | _ => written

/-- A field as it is written. -/
def escape (field : String) : String := String.ofList (escapeChars field.toList)

/-- What a written field holds. -/
def unescape (written : String) : String := String.ofList (unescapeChars written.toList)

/-- A record as it is written. -/
def writeRecord (record : List String) : String :=
  if record = [""] then "\"\"\n"
  else String.intercalate "," (record.map escape) ++ "\n"

theorem undoubleQuotes_doubleQuotes (field : List Char) :
    undoubleQuotes (doubleQuotes field) = field := by
  induction field with
  | nil => rfl
  | cons c rest ih =>
    by_cases quote : c = '"'
    · simp [doubleQuotes, quote, undoubleQuotes, ih]
    · simp only [doubleQuotes, quote, if_false]
      cases doubled : doubleQuotes rest with
      | nil => simp_all [undoubleQuotes]
      | cons d others => simp_all [undoubleQuotes]

end Octets.Csv
