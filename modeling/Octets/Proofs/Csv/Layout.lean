import Octets.Proofs.Csv.RoundTrip

/-!
# Layouts of a table

The bytes of a table may be laid out in many ways. Zeros may stand in front of the serial
id and blank lines in front of any record, a field may be written with or without quotes, and
there may be any number of line feeds at the end, or none. The table is the same.

Only the line that is reported for a record of another width depends on the layout: it is
counted in line feeds, whether they end a record, stand on a blank line or inside a field.

## Main definitions

* `Csv.Line` — a record with its bytes, and the blank lines in front of it
* `Csv.Layout`, `Layout.bytes` — the bytes of a table, and how they come about
* `Layout.front` — the bytes in front of a row

## Main results

* `Layout.parse_bytes_of_fits` — rows as wide as the header are found
* `Layout.parse_bytes_of_misfit` — the first row of another width is reported with its line
* `Layout.parse_layout` — what any layout is parsed as
-/

namespace Octets.Csv

/-- A record with its bytes, and the blank lines in front of it. -/
structure Line where
  record : List String
  written : Bytes
  blanks : Nat
  isWritten : WrittenFields record written
  /-- A record of one empty field is written between quotes. -/
  visible : written ≠ []

namespace Line

/-- The bytes of a record, with the blank lines in front of it. -/
def bytes (line : Line) : Bytes := List.replicate line.blanks Byte.lf ++ line.written

/-- The number of fields. -/
def width (line : Line) : Nat := line.record.length

/-- The bytes of records behind another one, each on a line of its own. -/
def below (lines : List Line) : Bytes := lines.flatMap fun line => Byte.lf :: line.bytes

end Line

theorem Line.below_cons_append (line : Line) (lines : List Line) (behind : Bytes) :
    Line.below (line :: lines) ++ behind =
      Byte.lf :: (line.bytes ++ (Line.below lines ++ behind)) := by
  rw [Line.below, List.flatMap_cons, List.append_assoc, List.cons_append]
  rfl

theorem Line.head?_below_append (lines : List Line) {behind : Bytes}
    (ends : ∀ b ∈ behind.head?, b = Byte.lf) :
    ∀ b ∈ (Line.below lines ++ behind).head?, b = Byte.lf := by
  cases lines with
  | nil => exact ends
  | cons line lines => simp [Line.below_cons_append]

/-- The bytes of a table, and how they come about. -/
structure Layout where
  serialId : UInt64
  /-- How many zeros stand in front of the serial id. -/
  zeros : Nat
  header : Line
  rows : List Line
  /-- How many line feeds stand behind the last record. -/
  ending : Nat

/-! ## Blank lines -/

theorem skipBlankLines_replicate (blanks : Nat) (rest : Bytes) :
    skipBlankLines (List.replicate blanks Byte.lf ++ rest) = skipBlankLines rest :=
  List.dropWhile_append_of_pos fun _ member => beq_iff_eq.mpr (List.eq_of_mem_replicate member)

theorem skipBlankLines_tail {rest : Bytes} (ends : ∀ b ∈ rest.head?, b = Byte.lf) :
    skipBlankLines rest.tail = skipBlankLines rest := by
  cases rest with
  | nil => rfl
  | cons b rest =>
    obtain rfl := ends b rfl
    rfl

theorem Line.skipBlankLines_append (line : Line) (behind : Bytes) :
    skipBlankLines (line.bytes ++ behind) = line.written ++ behind := by
  rw [Line.bytes, List.append_assoc, skipBlankLines_replicate,
    line.isWritten.skipBlankLines_append line.visible]

/-! ## Rows -/

namespace Table

variable {behind : Bytes}

/-- Rows are read from the next line that is not blank. -/
theorem readRows_congr {rest other : Bytes} (same : skipBlankLines rest = skipBlankLines other)
    (input : Bytes) (width : Nat) : readRows input width rest = readRows input width other := by
  rw [readRows, readRows, same]

theorem readRows_replicate (input : Bytes) (width ending : Nat) :
    readRows input width (List.replicate ending Byte.lf) = .ok [] := by
  have blank : skipBlankLines (List.replicate ending Byte.lf) = skipBlankLines [] := by
    rw [← List.append_nil (List.replicate ending Byte.lf), skipBlankLines_replicate]
  rw [readRows_congr blank, readRows_nil]

/-- The next line that is not blank is the first row, if it is as wide as the header. -/
theorem readRows_line_append (line : Line) (ends : ∀ b ∈ behind.head?, b = Byte.lf)
    (input : Bytes) (width : Nat) :
    readRows input width (line.bytes ++ behind) =
      if line.width ≠ width then
        .error (.rowWidth (input.lineAt (input.length - (line.written ++ behind).length)) width
          line.width)
      else (readRows input width behind).map (line.record :: ·) := by
  have found : skipBlankLines (line.bytes ++ behind) = skipBlankLines (line.written ++ behind) := by
    rw [line.skipBlankLines_append, line.isWritten.skipBlankLines_append line.visible]
  rw [readRows_congr found, readRows_append line.isWritten line.visible ends,
    readRows_congr (skipBlankLines_tail ends)]
  rfl

/-- Lines that are as wide as the header are rows in front of the others. -/
theorem readRows_below_append (input : Bytes) {width : Nat} {lines : List Line}
    (fits : ∀ line ∈ lines, line.width = width) (ends : ∀ b ∈ behind.head?, b = Byte.lf) :
    readRows input width (Line.below lines ++ behind) =
      (readRows input width behind).map (lines.map Line.record ++ ·) := by
  -- Each line is read from behind the line feed that ends the line before it.
  induction lines with
  | nil =>
    rw [Line.below, List.flatMap_nil, List.nil_append]
    cases readRows input width behind <;> rfl
  | cons line lines ih =>
    obtain ⟨fit, fits⟩ := List.forall_mem_cons.mp fits
    rw [Line.below_cons_append, readRows_congr (skipBlankLines_tail (by simp)).symm, List.tail_cons,
      readRows_line_append line (Line.head?_below_append lines ends), if_neg (not_not_intro fit),
      ih fits]
    cases readRows input width behind <;> rfl

end Table

/-! ## Layouts -/

namespace Layout

variable (l : Layout)

/-- The digits that the serial id is written with. -/
def digits : Bytes := List.replicate l.zeros 0x30 ++ Bytes.ofText (Table.idText l.serialId)

/-- The bytes up to the end of some rows. -/
def through (rows : List Line) : Bytes :=
  l.digits ++ Byte.lf :: l.header.bytes ++ Line.below rows

/-- The bytes of a table. -/
def bytes : Bytes := l.through l.rows ++ List.replicate l.ending Byte.lf

/-- The bytes in front of a row that stands behind others. -/
def front (above : List Line) (row : Line) : Bytes :=
  l.through above ++ Byte.lf :: List.replicate row.blanks Byte.lf

/-- Zeros in front change nothing about a number. -/
theorem decimal_digits : Table.decimal l.digits = l.serialId.toNat := by
  have zeros (n : Nat) : (List.replicate n (0x30 : UInt8)).foldl
      (fun n b => n * 10 + (b.toNat - 0x30)) 0 = 0 := by
    induction n with
    | zero => rfl
    | succ n ih => rwa [List.replicate_succ, List.foldl_cons]
  rw [digits, Table.decimal, List.foldl_append, zeros]
  exact Table.decimal_idText l.serialId

theorem isDigit_of_mem_digits {b : UInt8} (member : b ∈ l.digits) : Byte.isDigit b = true := by
  obtain zero | digit := List.mem_append.mp member
  · obtain rfl := List.eq_of_mem_replicate zero
    rfl
  · exact Table.isDigit_of_mem_idText digit

theorem digits_ne_nil : l.digits ≠ [] :=
  List.append_ne_nil_of_right_ne_nil _ (Table.ofText_idText_ne_nil l.serialId)

theorem ends_replicate (ending : Nat) :
    ∀ b ∈ (List.replicate ending Byte.lf).head?, b = Byte.lf := fun _ first =>
  List.eq_of_mem_replicate (List.mem_of_mem_head? first)

/-- The rows are read from what stands behind the header. -/
theorem parse_bytes_eq :
    Table.parse l.bytes =
      (Table.readRows l.bytes l.header.width
        (Line.below l.rows ++ List.replicate l.ending Byte.lf)).map fun rows =>
          ⟨l.serialId, l.header.record, rows⟩ := by
  have ends := Line.head?_below_append l.rows (ends_replicate l.ending)
  have bound : Table.decimal l.digits < UInt64.size := by
    rw [decimal_digits]
    exact l.serialId.toNat_lt
  have whole : l.bytes = l.digits ++ Byte.lf ::
      (l.header.bytes ++ (Line.below l.rows ++ List.replicate l.ending Byte.lf)) := by
    simp only [bytes, through, List.append_assoc, List.cons_append]
  -- The header is there, so the table is not reported as empty.
  have occupied := List.append_ne_nil_of_left_ne_nil l.header.visible
    (Line.below l.rows ++ List.replicate l.ending Byte.lf)
  have parsed := Table.parse_append (fun _ => l.isDigit_of_mem_digits) l.digits_ne_nil bound
    (l.header.bytes ++ (Line.below l.rows ++ List.replicate l.ending Byte.lf))
  rw [l.header.skipBlankLines_append, if_neg occupied, l.header.isWritten.readRecord_append ends,
    decimal_digits, UInt64.ofNat_toNat, ← whole] at parsed
  rw [parsed]
  simp only
  rw [Table.readRows_congr (skipBlankLines_tail ends)]
  rfl

/-- Rows that are as wide as the header are found. -/
theorem parse_bytes_of_fits (fits : ∀ row ∈ l.rows, row.width = l.header.width) :
    Table.parse l.bytes = .ok ⟨l.serialId, l.header.record, l.rows.map Line.record⟩ := by
  rw [parse_bytes_eq, Table.readRows_below_append _ fits (ends_replicate l.ending),
    Table.readRows_replicate]
  simp [Except.map]

variable {l} {above below : List Line} {row : Line}

/-- What stands behind the front of a row is the row. -/
theorem bytes_eq_front_append (rows : l.rows = above ++ row :: below) :
    l.bytes = l.front above row ++
      (row.written ++ (Line.below below ++ List.replicate l.ending Byte.lf)) := by
  simp only [bytes, front, through, rows, Line.below, Line.bytes, List.flatMap_append,
    List.flatMap_cons, List.append_assoc, List.cons_append]

/-- The first row of another width is reported, with the line that its first byte is on. -/
theorem parse_bytes_of_misfit (rows : l.rows = above ++ row :: below)
    (fits : ∀ row ∈ above, row.width = l.header.width) (misfit : row.width ≠ l.header.width) :
    Table.parse l.bytes =
      .error (.rowWidth ((l.front above row).count Byte.lf + 1) l.header.width row.width) := by
  have ends := Line.head?_below_append below (ends_replicate l.ending)
  -- The reader knows only how many bytes are left, which tells where the row begins.
  have line : l.bytes.lineAt (l.bytes.length -
      (row.written ++ (Line.below below ++ List.replicate l.ending Byte.lf)).length) =
        (l.front above row).count Byte.lf + 1 := by
    rw [bytes_eq_front_append rows, List.length_append, Nat.add_sub_cancel, Bytes.lineAt,
      List.take_left]
  have split : Line.below l.rows = Line.below above ++ Line.below (row :: below) := by
    rw [rows]
    exact List.flatMap_append
  rw [parse_bytes_eq, split, List.append_assoc, Line.below_cons_append,
    Table.readRows_below_append _ fits (by simp),
    Table.readRows_congr (skipBlankLines_tail (by simp)).symm, List.tail_cons,
    Table.readRows_line_append row ends, if_pos misfit, line]
  rfl

/-- Any layout is parsed as the table that is laid out, if its rows are as wide as the
header. Otherwise the first row that is not is reported, with the number of line feeds in
front of its first byte, and one. -/
theorem parse_layout (l : Layout) :
    ((∀ row ∈ l.rows, row.width = l.header.width) →
      Table.parse l.bytes = .ok ⟨l.serialId, l.header.record, l.rows.map Line.record⟩) ∧
    ∀ above row below, l.rows = above ++ row :: below →
      (∀ row ∈ above, row.width = l.header.width) → row.width ≠ l.header.width →
        l.front above row ++ row.written <+: l.bytes ∧
        Table.parse l.bytes =
          .error (.rowWidth ((l.front above row).count Byte.lf + 1) l.header.width row.width) := by
  refine ⟨l.parse_bytes_of_fits, fun above row below rows fits misfit =>
    ⟨?_, parse_bytes_of_misfit rows fits misfit⟩⟩
  rw [bytes_eq_front_append rows, ← List.append_assoc]
  exact List.prefix_append _ _

/-- Quotes inside and around fields, a line feed inside one, blank lines and no line feed at
the end; then with a row too many at the end, whose line is the eighth. -/
theorem parse_layout_quoted :
    Table.parse (Bytes.ofText "007\n\na,\"b\nc\"\n\n\n,x\"y") =
        .ok ⟨7, ["a", "b\nc"], [["", "x\"y"]]⟩ ∧
      Table.parse (Bytes.ofText "007\n\na,\"b\nc\"\n\n\n,x\"y\n\"z\"\n") =
        .error (.rowWidth 8 2 1) := by
  have names : WrittenFields ["a", "b\nc"] (Bytes.ofText "a,\"b\nc\"") :=
    .cons (.raw (by decide +kernel) (by decide)) (.last .quoted)
  have values : WrittenFields ["", "x\"y"] (Bytes.ofText ",x\"y") :=
    .cons (.raw (by decide +kernel) (by decide)) (.last (.raw (by decide +kernel) (by decide)))
  have surplus : WrittenFields ["z"] (Bytes.ofText "\"z\"") := .last .quoted
  let header : Line := ⟨_, _, 1, names, by decide⟩
  let row : Line := ⟨_, _, 2, values, by decide⟩
  let last : Line := ⟨_, _, 0, surplus, by decide⟩
  have wide : ∀ line ∈ [row], line.width = header.width := List.forall_mem_singleton.mpr rfl
  have narrow : last.width ≠ header.width := Nat.ne_of_lt Nat.one_lt_two
  have found := (parse_layout ⟨7, 2, header, [row], 0⟩).1 wide
  have reported := ((parse_layout ⟨7, 2, header, [row, last], 1⟩).2 [row] last [] rfl wide narrow).2
  simp only [bytes, front, through, digits, Line.below, Line.bytes, Line.width, header, row, last,
    List.flatMap_cons, List.flatMap_nil] at found reported
  exact ⟨found, reported⟩

end Layout

end Octets.Csv
