import Octets.Form.Body

/-!
# The syntax of multipart forms

How the entries of a form are written as a multipart body, without a word about
how it is read. The syntax leaves the writer two choices: the case of the letters
in the name of a header, and the blanks in front of its value.

## Main definitions

* `Form.Boundary`, `Form.Entry` — a boundary, and what may be sent with it
* `Form.quote`, `Form.disposition` — quoted texts, and the content disposition of
  an entry
* `Form.IsHeaderLine` — the lines that give a header a value
* `Form.WrittenEntry`, `Form.WrittenEntries`, `Form.Written` — how entries are
  written
-/

namespace Octets.Form

/-- The end of a line. -/
def lineEnd : Bytes := [0x0D, 0x0A]

/-- Two dashes. -/
def dashes : Bytes := [0x2D, 0x2D]

/-- A boundary: at least two bytes that a boundary may hold. -/
structure Boundary where
  bytes : Bytes
  long : 2 ≤ bytes.length
  fits : ∀ b ∈ bytes, isBoundary b = true

/-- What stands behind the data of each part. -/
def Boundary.delimiter (boundary : Boundary) : Bytes := lineEnd ++ dashes ++ boundary.bytes

/-- A text for a header line: of the bytes below the space it holds only tabs. -/
def IsHeaderText (text : String) : Prop := ∀ b ∈ Bytes.ofText text, 0x20 ≤ b ∨ b = 0x09

instance (text : String) : Decidable (IsHeaderText text) :=
  List.decidableBAll _ _

/-- A text that neither begins nor ends with ASCII whitespace. -/
def IsTrimmed (text : String) : Prop :=
  (∀ b ∈ (Bytes.ofText text).head?, Byte.isBlank b = false) ∧
    ∀ b ∈ (Bytes.ofText text).getLast?, Byte.isBlank b = false

instance (text : String) : Decidable (IsTrimmed text) :=
  @instDecidableAnd _ _ (Option.decidableForallMem _) (Option.decidableForallMem _)

/-- An entry of a form, to be sent with a boundary. -/
structure Entry (boundary : Boundary) where
  name : String
  filename : Option String
  contentType : Option String
  data : Bytes
  name_text : IsHeaderText name
  filename_text : ∀ text ∈ filename, IsHeaderText text
  contentType_text : ∀ text ∈ contentType, IsHeaderText text
  contentType_trimmed : ∀ text ∈ contentType, IsTrimmed text
  /-- The delimiter does not occur in the data. -/
  data_clean : ¬ boundary.delimiter <:+: data

namespace Entry

variable {boundary : Boundary}

/-- Whether an entry is a file; any other is a field. -/
def isFile (entry : Entry boundary) : Bool :=
  entry.filename.isSome || entry.contentType.isSome

/-- The file of an entry. -/
def file (entry : Entry boundary) : File :=
  ⟨entry.filename.getD "", entry.contentType.getD "", entry.data⟩

/-- The files among some entries, under their names. -/
def files (entries : List (Entry boundary)) : List (String × File) :=
  (entries.filter isFile).map fun entry => (entry.name, entry.file)

/-- The fields among some entries, under their names. -/
def fields (entries : List (Entry boundary)) : List (String × String) :=
  (entries.filter (!·.isFile)).map fun entry => (entry.name, Utf8.decodeLossy entry.data)

end Entry

/-- Every double quote and every backslash has a backslash put in front of it. -/
def escape (bytes : Bytes) : Bytes :=
  bytes.flatMap fun b => if b = 0x22 ∨ b = 0x5C then [0x5C, b] else [b]

/-- A text between double quotes. -/
def quote (text : String) : Bytes := 0x22 :: (escape (Bytes.ofText text) ++ [0x22])

/-- A parameter of a content disposition. -/
def quotedParameter (name text : String) : Bytes :=
  0x3B :: 0x20 :: (Bytes.ofText name ++ 0x3D :: quote text)

/-- The content disposition of an entry with this name and this name of a file. -/
def disposition (name : String) (filename : Option String) : Bytes :=
  Bytes.ofText "form-data" ++ quotedParameter "name" name ++
    filename.elim [] (quotedParameter "filename")

/-- A line that gives a header a value. -/
def IsHeaderLine (header : String) (value line : Bytes) : Prop :=
  ∃ name blanks, Bytes.lower name = Bytes.ofText header ∧
    (∀ b ∈ blanks, b = 0x20 ∨ b = 0x09) ∧ line = name ++ 0x3A :: (blanks ++ value)

/-- How a content type is written, if there is one. -/
inductive WrittenContentType : Option String → Bytes → Prop
  | none : WrittenContentType none []
  | some {text : String} {line : Bytes} :
      IsHeaderLine "content-type" (Bytes.ofText text) line →
        WrittenContentType (some text) (line ++ lineEnd)

variable {boundary : Boundary}

/-- How an entry is written, up to and including the delimiter behind its data. -/
inductive WrittenEntry (entry : Entry boundary) : Bytes → Prop
  | intro {line contentType : Bytes} :
      IsHeaderLine "content-disposition" (disposition entry.name entry.filename) line →
        WrittenContentType entry.contentType contentType →
          WrittenEntry entry
            (line ++ lineEnd ++ contentType ++ lineEnd ++ entry.data ++ boundary.delimiter)

/-- How entries are written, up to and including the dashes behind the last. -/
inductive WrittenEntries : List (Entry boundary) → Bytes → Prop
  | last {entry : Entry boundary} {bytes : Bytes} :
      WrittenEntry entry bytes → WrittenEntries [entry] (bytes ++ dashes)
  | cons {entry : Entry boundary} {entries : List (Entry boundary)} {bytes rest : Bytes} :
      WrittenEntry entry bytes → WrittenEntries entries rest →
        WrittenEntries (entry :: entries) (bytes ++ lineEnd ++ rest)

/-- How entries are written as a multipart body. -/
def Written (entries : List (Entry boundary)) (body : Bytes) : Prop :=
  ∃ rest, WrittenEntries entries rest ∧
    body = dashes ++ boundary.bytes ++ lineEnd ++ rest

end Octets.Form
