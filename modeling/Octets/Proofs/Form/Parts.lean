import Octets.Proofs.Form.Delimiter
import Octets.Proofs.Form.Syntax

/-!
# The parts of a multipart body

A multipart body is the line of its boundary and then its parts, each with any header lines that
say who it is, an empty line, data that do not hold the delimiter, and the delimiter. Such a
body is read to its end, part by part.

The tokens on the way are the boundary with its dashes, each header line, and of each part the
data together with the delimiter behind them: the data end only where the delimiter has been
read as a whole.

## Main definitions

* `Form.RawPart` — a part as it stands in a body
* `Form.multipart` — a body of parts
* `Form.addPart` — a form with one more part

## Main results

* `closes_part` — a part is read, and its lines and its data with the delimiter are its tokens
* `closes_multipart` — so is a whole body
-/

namespace Octets.Form

open Octets.Stream Octets.Stream.Grammar

/-- A part as it stands in a body. Its lines say its header, with a name at least. -/
structure RawPart (boundary : Boundary) where
  lines : List Bytes
  header : Part
  data : Bytes
  lines_fit : ∀ line ∈ lines, line ≠ [] ∧ ∀ b ∈ line, isHeader b = true
  said : lines.foldlM Part.readLine .empty = .ok header
  named : header.name.isSome = true
  /-- The delimiter does not occur in the data. -/
  data_clean : ¬ boundary.delimiter <:+: data

variable {boundary : Boundary} {form : Form} {part part' : Part} {n : Nat}
  {line : Bytes} {lines : List Bytes}

namespace RawPart

/-- The bytes of a part, up to and including the delimiter behind its data. -/
def bytes (raw : RawPart boundary) : Bytes :=
  raw.lines.flatMap (· ++ lineEnd) ++ lineEnd ++ (raw.data ++ boundary.delimiter)

/-- The tokens of a part: its lines, and its data with the delimiter. -/
def tokens (raw : RawPart boundary) : List Bytes := raw.lines ++ [raw.data ++ boundary.delimiter]

/-- The bytes of parts behind a boundary, each behind a line end. -/
def below (parts : List (RawPart boundary)) : Bytes := parts.flatMap fun raw => lineEnd ++ raw.bytes

end RawPart

/-- The bytes of a multipart body, up to and including the dashes behind the last delimiter. -/
def multipart (parts : List (RawPart boundary)) : Bytes :=
  dashes ++ boundary.bytes ++ RawPart.below parts ++ dashes

/-- The form with one more part. -/
def addPart (form : Form) (header : Part) (data : Bytes) : Form :=
  match header.name with
  | none => form
  | some name =>
    if header.filename.isSome || header.contentType.isSome then
      let file : File := ⟨header.filename.getD "", header.contentType.getD "", data⟩
      { form with files := form.files.insert name file }
    else { form with fields := form.fields.insert name (Utf8.decodeLossy data) }

/-- The form with more parts. -/
def addParts (form : Form) (parts : List (RawPart boundary)) : Form :=
  parts.foldl (fun form raw => form.addPart raw.header raw.data) form

/-! ## Lines -/

/-- A session in a multipart form, between two tokens. -/
abbrev between (boundary : Boundary) (phase : Phase) (form : Form) (part : Part) (n : Nat) :
    Session Memory :=
  ⟨⟨phase, form, "", boundary.delimiter, part⟩, none, none, n⟩

theorem closes_headerLineFeed :
    grammar.Closes (between boundary .headerLineFeed form part n) [Byte.lf] []
      (between boundary .header form part n) :=
  .of_outside rfl rfl

/-- A line that says something about the part is read as a token, and said. -/
theorem closes_headerLine (nonempty : line ≠ []) (fits : ∀ b ∈ line, isHeader b = true)
    (said : part.readLine line = .ok part') :
    grammar.Closes (between boundary .header form part n) (line ++ lineEnd) [line]
      (between boundary .header form part' n) := by
  obtain ⟨b, run, rfl⟩ := List.exists_cons_of_ne_nil nonempty
  obtain ⟨first, rest⟩ := List.forall_mem_cons.mp fits
  let m : Memory := ⟨.header, form, "", boundary.delimiter, part⟩
  -- No byte of the line is a carriage return, so the line is taken as a token.
  have opens : visit m b = .first (m.enter .headerRest) := by
    have other : b ≠ Byte.cr := by
      rintro rfl
      cases first
    exact (if_neg other).trans (if_pos first)
  have stays (c : UInt8) (inside : isHeader c = true) :
      visit (m.enter .headerRest) c = .inside (m.enter .headerRest) := if_pos inside
  have token : grammar.Reads ⟨m, none, none, n⟩ (b :: run)
      ⟨m.enter .headerRest, some (b :: run), none, n⟩ :=
    reads_token isHeader rfl rfl opens stays rest
  have gathered := token.closes_nil (Nat.le_of_eq (Nat.zero_add _))
  have stored : (m.enter .headerRest).storeHeader (b :: run) =
      .ok ⟨.headerRest, form, "", boundary.delimiter, part'⟩ := by
    rw [Memory.storeHeader, show (m.enter .headerRest).part = part from rfl, said]
    rfl
  have closing : grammar.Closes ⟨m.enter .headerRest, some (b :: run), none, n⟩ [Byte.cr]
      [b :: run] (between boundary .headerLineFeed form part' n) :=
    .of_behind rfl rfl rfl (by rw [Session.openBytes, Option.getD_some, stored]; rfl)
  exact gathered.append (closing.append closes_headerLineFeed)

/-- Lines are read one after the other. -/
theorem closes_headerLines (fit : ∀ line ∈ lines, line ≠ [] ∧ ∀ b ∈ line, isHeader b = true)
    (said : lines.foldlM Part.readLine part = .ok part') :
    grammar.Closes (between boundary .header form part n) (lines.flatMap (· ++ lineEnd)) lines
      (between boundary .header form part' n) := by
  induction lines generalizing part with
  | nil =>
    cases said
    exact .nil _
  | cons line lines ih =>
    obtain ⟨⟨nonempty, fits⟩, fit⟩ := List.forall_mem_cons.mp fit
    rw [List.foldlM_cons] at said
    cases first : part.readLine line with
    | error fault =>
      rw [first] at said
      cases said
    | ok next =>
      rw [first] at said
      exact (closes_headerLine nonempty fits first).append (ih fit said)

/-- The empty line behind the header of a part that has a name. -/
theorem closes_emptyLine (named : part.name.isSome = true) :
    grammar.Closes (between boundary .header form part n) lineEnd []
      (between boundary .contentStart form part n) := by
  obtain ⟨_ | name, filename, contentType⟩ := part
  · cases named
  · have first : grammar.Closes (between boundary .header form ⟨some name, filename, contentType⟩ n)
        [Byte.cr] [] (between boundary .contentLineFeed form ⟨some name, filename, contentType⟩ n) :=
      .of_outside rfl rfl
    exact first.append (.of_outside rfl rfl)

/-- A line end behind a delimiter leads to the next part. -/
theorem closes_nextPart :
    grammar.Closes (between boundary .afterBoundary form part n) lineEnd []
      (between boundary .header form part n) := by
  have first : grammar.Closes (between boundary .afterBoundary form part n) [Byte.cr] []
      (between boundary .headerLineFeed form part n) := .of_outside rfl rfl
  exact first.append closes_headerLineFeed

/-- Two dashes behind a delimiter end the body. -/
theorem closes_lastDashes :
    grammar.Closes (between boundary .afterBoundary form part n) dashes []
      (between boundary .done form part n) := by
  have first : grammar.Closes (between boundary .afterBoundary form part n) [Byte.minus] []
      (between boundary .lastDash form part n) := .of_outside rfl rfl
  exact first.append (.of_outside rfl rfl)

/-- The line of the boundary opens a multipart form. -/
theorem closes_opening (boundary : Boundary) (capacity : Nat) :
    grammar.Closes (.start .start ⟨capacity, none⟩) (dashes ++ boundary.bytes ++ lineEnd)
      [dashes ++ boundary.bytes] (between boundary .header .empty .empty 0) := by
  -- The dashes belong to the token of the boundary.
  let inside (run : Bytes) : Session Memory := ⟨Memory.start.enter .boundary, some run, none, 0⟩
  have dashed : grammar.Reads (.start .start ⟨capacity, none⟩) dashes (inside dashes) :=
    (Reads.single rfl (read_first rfl)).append (.single rfl (read_inside rfl))
  have pass (run : Bytes) (b : UInt8) (fits : isBoundary b = true) :
      grammar.read (inside run) b = .ok (inside (run ++ [b])) :=
    read_inside (if_pos fits)
  have bounded : grammar.Reads (inside dashes) boundary.bytes (inside (dashes ++ boundary.bytes)) :=
    reads_scan inside (fun _ => rfl) pass dashes boundary.bytes boundary.fits
  have gathered := (dashed.append bounded).closes_nil (Nat.le_of_eq (Nat.zero_add _))
  have stored : (Memory.start.enter .boundary).storeBoundary (dashes ++ boundary.bytes) =
      .ok ⟨.boundary, .empty, "", boundary.delimiter, .empty⟩ := by
    have long : ¬ (dashes ++ boundary.bytes).length ≤ 3 := by
      have := boundary.long
      simp only [dashes, List.length_append, List.length_cons, List.length_nil]
      omega
    exact if_neg long
  have closing : grammar.Closes (inside (dashes ++ boundary.bytes)) [Byte.cr]
      [dashes ++ boundary.bytes] (between boundary .headerLineFeed .empty .empty 0) :=
    .of_behind rfl rfl rfl (by rw [Session.openBytes, Option.getD_some, stored]; rfl)
  exact gathered.append (closing.append closes_headerLineFeed)

/-! ## Parts -/

theorem isDelimiter_delimiter (boundary : Boundary) : IsDelimiter boundary.delimiter := by
  refine ⟨Byte.lf :: Byte.minus :: Byte.minus :: boundary.bytes, rfl, ?_⟩
  have inner : Byte.cr ∉ boundary.bytes := fun member => by cases boundary.fits _ member
  simp only [List.mem_cons, inner, or_false]
  decide

theorem one_lt_length_delimiter (boundary : Boundary) : 1 < boundary.delimiter.length := by
  simp [Boundary.delimiter, lineEnd]

/-- A part with a name is stored without the delimiter behind its data. -/
theorem storePart_append {m : Memory} (named : m.part.name.isSome = true) (data : Bytes) :
    m.storePart (data ++ m.delimiter) =
      .ok { m with form := m.form.addPart m.part data, part := .empty } := by
  have stored : (data ++ m.delimiter).take
      ((data ++ m.delimiter).length - m.delimiter.length) = data := by
    rw [List.length_append, Nat.add_sub_cancel, List.take_left]
  obtain ⟨name, called⟩ := Option.isSome_iff_exists.mp named
  simp only [Memory.storePart, stored, addPart, called]

/-- A part is read, and leaves nothing of its header behind. Its tokens are its lines, and its
data with the delimiter. -/
theorem closes_part (raw : RawPart boundary) :
    grammar.Closes (between boundary .header form .empty n) raw.bytes raw.tokens
      (between boundary .afterBoundary (form.addPart raw.header raw.data) .empty n) := by
  have lines : grammar.Closes (between boundary .header form .empty n) _ raw.lines
      (between boundary .header form raw.header n) :=
    closes_headerLines raw.lines_fit raw.said
  have data : grammar.Closes (between boundary .contentStart form raw.header n)
      (raw.data ++ boundary.delimiter) [raw.data ++ boundary.delimiter]
      (between boundary .afterBoundary (form.addPart raw.header raw.data) .empty n) :=
    closes_data (isDelimiter_delimiter boundary) (one_lt_length_delimiter boundary) raw.data_clean
      (storePart_append (m := ⟨.contentStart, form, "", boundary.delimiter, raw.header⟩) raw.named
        raw.data)
  have all := (lines.append (closes_emptyLine raw.named)).append data
  rwa [List.append_nil] at all

/-- Parts are read one after the other, each behind a line end. -/
theorem closes_parts (parts : List (RawPart boundary)) :
    grammar.Closes (between boundary .afterBoundary form .empty n) (RawPart.below parts)
      (parts.flatMap RawPart.tokens)
      (between boundary .afterBoundary (form.addParts parts) .empty n) := by
  induction parts generalizing form with
  | nil => exact .nil _
  | cons raw parts ih => exact (closes_nextPart.append (closes_part raw)).append ih

/-- A multipart body with at least one part is read to its end. Its tokens are the boundary with
its dashes and those of the parts. -/
theorem closes_multipart (capacity : Nat) {parts : List (RawPart boundary)} (occupied : parts ≠ []) :
    grammar.Closes (.start .start ⟨capacity, none⟩) (multipart parts)
      ((dashes ++ boundary.bytes) :: parts.flatMap RawPart.tokens)
      (between boundary .done (Form.empty.addParts parts) .empty 0) := by
  obtain ⟨raw, parts, rfl⟩ := List.exists_cons_of_ne_nil occupied
  -- The line end in front of the first part belongs to the line of the boundary.
  have first := (closes_opening boundary capacity).append (closes_part (n := 0) raw)
  have all := (first.append (closes_parts parts)).append closes_lastDashes
  simpa [multipart, RawPart.below, addParts] using all

end Octets.Form
