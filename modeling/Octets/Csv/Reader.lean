import Octets.Cursor

/-!
# Reading records

Reading the fields and records of a table from its bytes. A field between double
quotes holds everything up to the closing quote, a doubled quote standing for
one; bytes between the closing quote and the end of the field are kept behind
it. Any other field reaches to the next comma or line feed. Line feeds in front
of a record are skipped, and the last record needs none at its end.

A field is read through a cursor, in stretches that are taken as tokens: one up to
each quote, and one from the closing quote to the end of the field.

What stops a reader is reported with the bytes that were unread there, so that
whoever holds the whole input can tell the line.

## Main definitions

* `Csv.fieldAt` — the field at a cursor, and the cursor behind it
* `Csv.readField` — one field and the bytes behind it
* `Csv.readRecord` — one record and the bytes behind it
* `Csv.skipBlankLines` — to the front of the next record
-/

namespace Octets.Csv

/-- The bytes that end a field without quotes. -/
def isFieldEnd (b : UInt8) : Bool := b == Byte.comma || b == Byte.lf

/-- The bytes up to the end of a field, as a token. -/
def plainAt (c : Cursor) : Bytes × Cursor := (c.beginToken.accept (Scan.upTo isFieldEnd)).2.collect

theorem length_rest_behindQuote {c atQuote : Cursor} {target : Nat}
    (found : c.jumpTo Byte.doubleQuote = (.moved target, atQuote)) :
    (atQuote.beginToken.advance 1).rest.length ≤ c.rest.length := by
  have behind := Cursor.length_rest_advance_le atQuote.beginToken 1
  have quote := Cursor.length_rest_of_jumpTo found
  exact Nat.le_trans behind quote

/-- What a field between quotes holds behind the given bytes of it, and the cursor
behind its closing quote; `none` if there is no closing quote. Behind a doubled
quote the next stretch begins. -/
def quotedFrom (c : Cursor) (value : Bytes) : Option (Bytes × Cursor) :=
  match _found : c.jumpTo Byte.doubleQuote with
  | (.moved _, atQuote) =>
    match _doubled : (atQuote.beginToken.advance 1).read? (Scan.byte (· == Byte.doubleQuote)) with
    | some after => quotedFrom after.beginToken (value ++ atQuote.token ++ [Byte.doubleQuote])
    | none => some (value ++ atQuote.token, atQuote.beginToken.advance 1)
  | _ => none
termination_by c.rest.length
decreasing_by
  have shorter := Cursor.length_rest_of_read?_byte _doubled
  exact Nat.lt_of_lt_of_le shorter (length_rest_behindQuote _found)

/-- What the field at the cursor holds, and the cursor behind it; `none` if it opens
a quote and does not close it. -/
def fieldAt (c : Cursor) : Option (Bytes × Cursor) :=
  match c.beginToken.read? (Scan.byte (· == Byte.doubleQuote)) with
  | none => some (plainAt c)
  | some inside =>
    match quotedFrom inside.beginToken [] with
    | none => none
    | some (value, behind) =>
      let (token, after) := plainAt behind
      some (value ++ token, after)

/-- One field, and the bytes behind it; `none` if it opens a quote and does not
close it. -/
def readField (bytes : Bytes) : Option (String × Bytes) :=
  match fieldAt (.ofBytes bytes) with
  | none => none
  | some (field, after) => some (Utf8.decodeLossy field, after.rest)

/-- What stops a reader, with the bytes unread before the field or behind it. -/
inductive ReadFault where
  /-- The field opens a quote and does not close it. -/
  | openQuote (field : Bytes)
  /-- Behind the field stands neither a comma, nor a line feed, nor the end. -/
  | strayByte (behind : Bytes)
  deriving DecidableEq, Repr

theorem length_rest_plainAt (c : Cursor) : (plainAt c).2.rest.length ≤ c.rest.length :=
  Cursor.length_rest_accept c.beginToken _

theorem length_rest_quotedFrom {c after : Cursor} {value inner : Bytes}
    (read : quotedFrom c value = some (inner, after)) : after.rest.length ≤ c.rest.length := by
  fun_induction quotedFrom c value with
  | case1 c value target atQuote found next doubled ih =>
    have shorter := Nat.le_of_lt (Cursor.length_rest_of_read?_byte doubled)
    exact Nat.le_trans (ih read) (Nat.le_trans shorter (length_rest_behindQuote found))
  | case2 c value target atQuote found =>
    cases read
    exact length_rest_behindQuote found
  | case3 => cases read

theorem length_rest_fieldAt {c after : Cursor} {field : Bytes}
    (read : fieldAt c = some (field, after)) : after.rest.length ≤ c.rest.length := by
  unfold fieldAt at read
  split at read
  · cases read
    exact length_rest_plainAt c
  · rename_i inside opened
    split at read
    · cases read
    · rename_i value behind quoted
      cases read
      have shorter := Nat.le_of_lt (Cursor.length_rest_of_read?_byte opened)
      have closed := length_rest_quotedFrom quoted
      exact Nat.le_trans (length_rest_plainAt behind) (Nat.le_trans closed shorter)

theorem length_readField {bytes : Bytes} {field : String} {behind : Bytes}
    (read : readField bytes = some (field, behind)) : behind.length ≤ bytes.length := by
  unfold readField at read
  split at read
  · cases read
  · rename_i found
    cases read
    simpa using length_rest_fieldAt found

/-- One record, and the bytes behind it. -/
def readRecord (bytes : Bytes) : Except ReadFault (List String × Bytes) :=
  match _read : readField bytes with
  | none => .error (.openQuote bytes)
  | some (field, []) => .ok ([field], [])
  | some (field, b :: rest) =>
    if b = Byte.comma then
      match readRecord rest with
      | .error fault => .error fault
      | .ok (fields, behind) => .ok (field :: fields, behind)
    else if b = Byte.lf then .ok ([field], rest)
    else .error (.strayByte (b :: rest))
termination_by bytes.length
decreasing_by
  have := length_readField _read
  simp only [List.length_cons] at this
  omega

/-- The bytes without the line feeds in front of the next record. -/
def skipBlankLines (bytes : Bytes) : Bytes := bytes.dropWhile (· == Byte.lf)

theorem length_readRecord_le {bytes : Bytes} {record : List String} {behind : Bytes}
    (read : readRecord bytes = .ok (record, behind)) : behind.length ≤ bytes.length := by
  fun_induction readRecord bytes generalizing record behind with
  | case1 | case3 | case6 => simp at read
  | case2 => simp_all
  | case4 =>
    rename_i deeper found ih
    have := length_readField found
    have := ih deeper
    simp_all
    omega
  | case5 =>
    rename_i found _
    have := length_readField found
    simp_all
    omega

/-- A record takes at least one byte, if there is one. -/
theorem length_readRecord_lt {bytes : Bytes} {record : List String} {behind : Bytes}
    (read : readRecord bytes = .ok (record, behind)) (unread : bytes ≠ []) :
    behind.length < bytes.length := by
  have positive := List.length_pos_iff.mpr unread
  unfold readRecord at read
  split at read
  · simp at read
  · simp_all
  · rename_i field b rest found
    have := length_readField found
    split at read
    · split at read
      · simp at read
      · rename_i deeper
        have := length_readRecord_le deeper
        simp_all
        omega
    · split at read
      · cases read
        simp only [List.length_cons] at this
        omega
      · simp at read

end Octets.Csv
