import Octets.Proofs.Entries
import Octets.Proofs.Form.Chunking
import Octets.Proofs.Form.PartHeader
import Octets.Proofs.Form.Parts

/-!
# Multipart forms come back as they were written

An entry is written as a part of a multipart body whose header lines say the name of
the entry, that of its file and its content type. The headers of a part are forgotten
when the part is stored, so each entry is read as if it were the first, and an
induction over how entries are written takes them all.

## Main definitions

* `Form.add` — a form with one more entry

## Main results

* `reads_of_writtenEntry` — an entry is read, and added to the form
* `completes_of_writtenEntries` — so are all, up to the end of the body
* `Reader.feedAll_of_written` — however a stream with a written body in front is
  cut into chunks, the entries come back
-/

namespace Octets.Form

open Octets.Stream Octets.Stream.Grammar

variable {boundary : Boundary} {entry : Entry boundary} {entries : List (Entry boundary)}
  {form : Form} {n : Nat} {bytes line : Bytes}

/-! ## Entries -/

/-- The form with one more entry. -/
def add (form : Form) (entry : Entry boundary) : Form :=
  if entry.isFile then { form with files := form.files.insert entry.name entry.file }
  else { form with fields := form.fields.insert entry.name (Utf8.decodeLossy entry.data) }

/-- What the header of an entry says. -/
def Entry.header (entry : Entry boundary) : Part :=
  ⟨some entry.name, entry.filename, entry.contentType⟩

theorem addPart_entry (form : Form) (entry : Entry boundary) :
    form.addPart entry.header entry.data = form.add entry := rfl

theorem IsHeaderLine.ne_nil {header : String} {value : Bytes}
    (valid : IsHeaderLine header value line) : line ≠ [] := by
  obtain ⟨name, blanks, _, _, rfl⟩ := valid
  simp

/-- A content type is written as a header line or left out. -/
theorem exists_lines_of_writtenContentType {contentType : Option String}
    (texts : ∀ text ∈ contentType, IsHeaderText text)
    (trimmed : ∀ text ∈ contentType, IsTrimmed text)
    (written : WrittenContentType contentType bytes) (name filename : Option String) :
    ∃ lines : List Bytes, lines.flatMap (· ++ lineEnd) = bytes ∧
      (∀ line ∈ lines, line ≠ [] ∧ ∀ b ∈ line, isHeader b = true) ∧
      lines.foldlM Part.readLine ⟨name, filename, none⟩ = .ok ⟨name, filename, contentType⟩ := by
  cases written with
  | none => exact ⟨[], rfl, nofun, rfl⟩
  | @some text line valid =>
    have fits := valid.isHeader_of_mem (List.all_eq_true.mp rfl)
      (texts text rfl).isHeader_of_mem
    refine ⟨[line], List.append_nil _, List.forall_mem_singleton.mpr ⟨valid.ne_nil, fits⟩, ?_⟩
    rw [List.foldlM_cons, readLine_contentType _ (trimmed text rfl) valid]
    rfl

/-- A written entry is a part that says what the entry says. -/
theorem exists_rawPart (written : WrittenEntry entry bytes) :
    ∃ raw : RawPart boundary,
      raw.bytes = bytes ∧ raw.header = entry.header ∧ raw.data = entry.data := by
  obtain ⟨disposed, typed⟩ := written
  have fits := disposed.isHeader_of_mem (List.all_eq_true.mp rfl)
    (isHeader_of_mem_disposition entry.name_text entry.filename_text)
  obtain ⟨lines, rfl, fit, said⟩ := exists_lines_of_writtenContentType entry.contentType_text
    entry.contentType_trimmed typed (some entry.name) entry.filename
  refine ⟨⟨_ :: lines, entry.header, entry.data,
    List.forall_mem_cons.mpr ⟨⟨disposed.ne_nil, fits⟩, fit⟩, ?_, rfl, entry.data_clean⟩, ?_, rfl, rfl⟩
  · rw [List.foldlM_cons, readLine_disposition disposed]
    exact said
  · simp only [RawPart.bytes, List.flatMap_cons, List.append_assoc]

/-- An entry is read as it was written, and leaves nothing of its header behind. -/
theorem reads_of_writtenEntry (written : WrittenEntry entry bytes) :
    grammar.Reads (between boundary .header form .empty n) bytes
      (between boundary .afterBoundary (form.add entry) .empty n) := by
  obtain ⟨raw, rfl, header, data⟩ := exists_rawPart written
  rw [← addPart_entry, ← header, ← data]
  exact (closes_part raw).reads

/-- Entries are read as they were written, one after the other. -/
theorem completes_of_writtenEntries (written : WrittenEntries entries bytes) :
    grammar.Completes (between boundary .header form .empty n) bytes
      (between boundary .done (entries.foldl add form) .empty n) := by
  -- The induction is on how the entries are written; the form so far is left open,
  -- and each entry finds the header of its part empty.
  induction written generalizing form with
  | last written => exact ⟨(reads_of_writtenEntry written).append closes_lastDashes.reads, rfl⟩
  | cons written _ ih =>
    exact Completes.prepend ((reads_of_writtenEntry written).append closes_nextPart.reads) ih

/-! ## Bodies -/

/-- The line of the boundary opens a multipart form. -/
theorem reads_opening (boundary : Boundary) (capacity : Nat) :
    grammar.Reads (.start .start ⟨capacity, none⟩) (dashes ++ boundary.bytes ++ lineEnd)
      (between boundary .header .empty .empty 0) :=
  (closes_opening boundary capacity).reads

theorem Entry.files_cons (entry : Entry boundary) (entries : List (Entry boundary)) :
    Entry.files (entry :: entries) =
      if entry.isFile then (entry.name, entry.file) :: Entry.files entries
      else Entry.files entries := by
  unfold Entry.files
  rw [List.filter_cons]
  split <;> rfl

theorem files_foldl_add (form : Form) (entries : List (Entry boundary)) :
    (entries.foldl add form).files = form.files.insertMany (Entry.files entries) := by
  induction entries generalizing form with
  | nil => rfl
  | cons entry entries ih =>
    rw [List.foldl_cons, ih, add, Entry.files_cons]
    split
    · rw [Std.TreeMap.insertMany_cons]
    · rfl

theorem Entry.fields_cons (entry : Entry boundary) (entries : List (Entry boundary)) :
    Entry.fields (entry :: entries) =
      if entry.isFile then Entry.fields entries
      else (entry.name, Utf8.decodeLossy entry.data) :: Entry.fields entries := by
  unfold Entry.fields
  rw [List.filter_cons]
  cases entry.isFile <;> rfl

theorem fields_foldl_add (form : Form) (entries : List (Entry boundary)) :
    (entries.foldl add form).fields = form.fields.insertMany (Entry.fields entries) := by
  induction entries generalizing form with
  | nil => rfl
  | cons entry entries ih =>
    rw [List.foldl_cons, ih, add, Entry.fields_cons]
    split
    · rfl
    · rw [Std.TreeMap.insertMany_cons]

namespace Reader

/-- Entries that are written as a multipart body come back, whatever follows the
body and however the stream is cut into chunks. Just the body is consumed, and of
several files, or fields, with one name the last one counts. -/
theorem feedAll_of_written (capacity : Nat) {body back : Bytes} (written : Written entries body)
    {chunks : List Bytes} (cut : chunks.flatten = body ++ back) :
    let run := (start ⟨capacity, none⟩).feedAll chunks
    run.2 = .ok true ∧ run.1.isDone = true ∧ run.1.consumed = body.length ∧
      (∀ name, run.1.form.files[name]? = lastValue? (Entry.files entries) name) ∧
      ∀ name, run.1.form.fields[name]? = lastValue? (Entry.fields entries) name := by
  intro run
  obtain ⟨rest, writtenRest, rfl⟩ := written
  have complete : grammar.Completes (.start .start ⟨capacity, none⟩)
      (dashes ++ boundary.bytes ++ lineEnd ++ rest)
      (between boundary .done (entries.foldl add .empty) .empty 0) :=
    .prepend (reads_opening boundary capacity) (completes_of_writtenEntries writtenRest)
  have fed := feedAll_of_completes rfl complete cut
  have session := feedAll_session (start ⟨capacity, none⟩) chunks
  obtain ⟨left, answer⟩ := Prod.mk.inj (session.trans fed)
  refine ⟨answer, ?_, ?_, fun name => ?_, fun name => ?_⟩
  · rw [Reader.isDone, left]
    rfl
  · rw [Reader.consumed, left]
    exact Nat.zero_add _
  · rw [Reader.form, left]
    show (entries.foldl add .empty).files[name]? = _
    rw [files_foldl_add, getElem?_insertMany, Form.empty, Std.TreeMap.getElem?_emptyc,
      Option.or_none]
  · rw [Reader.form, left]
    show (entries.foldl add .empty).fields[name]? = _
    rw [fields_foldl_add, getElem?_insertMany, Form.empty, Std.TreeMap.getElem?_emptyc,
      Option.or_none]

/-- A boundary for a body of two parts. -/
def twoLetters : Boundary := ⟨Bytes.ofText "xY", by decide, List.all_eq_true.mp rfl⟩

/-- A file whose data begin with what might become the delimiter, and a field. -/
def fileAndField : List (Entry twoLetters) :=
  [⟨"a", some "b\"", some "text/plain", Bytes.ofText "\r\r\n--x", by decide, by decide, by decide,
      by decide, by decide⟩,
    ⟨"c", none, none, Bytes.ofText "d", by decide, by decide, by decide, by decide, by decide⟩]

theorem feedAll_fileAndField :
    let head :=
      Bytes.ofText "--xY\r\nCONTENT-disposition: form-data; name=\"a\"; filename=\"b\\\"\""
    let type := Bytes.ofText "\r\ncontent-type:text/plain\r\n\r\n\r\r\n--x\r\n--xY\r\n"
    let field := Bytes.ofText "Content-Disposition: form-data; name=\"c\"\r\n\r\nd\r\n--xY--"
    let run := (start ⟨16, none⟩).feedAll [head, type, field ++ Bytes.ofText "--"]
    run.2 = .ok true ∧ run.1.isDone = true ∧
      run.1.consumed = (head ++ type ++ field).length ∧
      (∀ name, run.1.form.files[name]? = lastValue? (Entry.files fileAndField) name) ∧
      ∀ name, run.1.form.fields[name]? = lastValue? (Entry.fields fileAndField) name := by
  intro head type field
  have blank (b : UInt8) (member : b ∈ [0x20]) : b = 0x20 ∨ b = 0x09 :=
    .inl (List.mem_singleton.mp member)
  have written : Written fileAndField (head ++ type ++ field) :=
    ⟨_, .cons
      ⟨⟨Bytes.ofText "CONTENT-disposition", [0x20], rfl, blank, rfl⟩,
        .some ⟨Bytes.ofText "content-type", [], rfl, nofun, rfl⟩⟩
      (.last ⟨⟨Bytes.ofText "Content-Disposition", [0x20], rfl, blank, rfl⟩, .none⟩), rfl⟩
  have cut : [head, type, field ++ Bytes.ofText "--"].flatten =
      head ++ type ++ field ++ Bytes.ofText "--" := rfl
  exact feedAll_of_written 16 written cut

end Reader

end Octets.Form
