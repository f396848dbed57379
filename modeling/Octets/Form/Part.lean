import Octets.LeadTable
import Octets.Text.Utf8

/-!
# Part headers

The header lines of one part of a multipart body. Two of them matter. The
content disposition must be form data; its parameters, each behind a semicolon,
may give the name of the part and the name of a file. The content type is kept
without surrounding whitespace. Field names and parameter names are read in any
case of their letters, and other fields are skipped.

## Main definitions

* `Form.Part` — what the headers of a part have said so far
* `Form.parameter` — one parameter of a content disposition
* `Part.readLine` — one more header line
-/

namespace Octets.Form

/-- What the headers of a part have said so far. -/
structure Part where
  name : Option String
  filename : Option String
  contentType : Option String
  deriving DecidableEq, Repr

/-- Nothing said yet. -/
def Part.empty : Part := ⟨none, none, none⟩

/-- Why a header line does not fit. -/
inductive LineFault where
  /-- The line has no field name before a colon. -/
  | noField
  /-- The content disposition is no form data, or goes on behind its
  parameters. -/
  | disposition
  deriving DecidableEq, Repr

/-- The bytes inside a quoted value: a backslash gives way to the byte behind
it. -/
def unquote : Bytes → Bytes
  | [] => []
  | [b] => if b = Byte.backslash then [] else [b]
  | b :: c :: rest =>
    if b = Byte.backslash then c :: unquote rest else b :: unquote (c :: rest)

/-- The value of a parameter, and the bytes behind it. A quoted value ends at its
closing quote; any other reaches to the next semicolon and is kept without
surrounding whitespace. -/
def parameterValue (bytes : Bytes) : String × Bytes :=
  match Scan.quotedEscaped Byte.doubleQuote bytes with
  | some n => (Utf8.decodeLossy (unquote (bytes.slice 1 (n - 1))), bytes.drop n)
  | none =>
    (Utf8.decodeLossy (Bytes.trim (bytes.takeWhile (· != Byte.semicolon))),
      bytes.dropWhile (· != Byte.semicolon))

/-- A byte that does not end the name of a parameter. -/
def isParameterName (b : UInt8) : Bool := b != Byte.equal && b != Byte.semicolon

/-- One parameter behind its semicolon: its name in small letters, its value, and
the bytes behind it and the spaces that follow. -/
def parameter (bytes : Bytes) : Bytes × String × Bytes :=
  let bytes := bytes.dropWhile Byte.isSpaceTab
  let name := Bytes.lower (bytes.takeWhile isParameterName)
  let (value, rest) :=
    match bytes.dropWhile isParameterName with
    | b :: rest => if b = Byte.equal then parameterValue rest else ("", b :: rest)
    | [] => ("", [])
  (name, value, rest.dropWhile Byte.isSpaceTab)

theorem length_dropWhile_le (cls : UInt8 → Bool) (bytes : Bytes) :
    (bytes.dropWhile cls).length ≤ bytes.length :=
  (List.dropWhile_suffix cls).length_le

theorem length_parameterValue_le (bytes : Bytes) :
    (parameterValue bytes).2.length ≤ bytes.length := by
  unfold parameterValue
  split
  · simp
  · exact length_dropWhile_le _ _

theorem length_parameter_le (bytes : Bytes) : (parameter bytes).2.2.length ≤ bytes.length := by
  have spaces := length_dropWhile_le Byte.isSpaceTab bytes
  have name := length_dropWhile_le isParameterName (bytes.dropWhile Byte.isSpaceTab)
  simp only [parameter]
  refine Nat.le_trans (length_dropWhile_le _ _) ?_
  split
  · rename_i b rest at_mark
    rw [at_mark] at name
    have value := length_parameterValue_le rest
    simp only [List.length_cons] at name
    split
    · omega
    · simp only [List.length_cons]
      omega
  · simp

namespace Part

/-- Remembers a parameter of the content disposition. -/
def assign (part : Part) (name : Bytes) (value : String) : Part :=
  if name = Bytes.ofText "name" then { part with name := some value }
  else if name = Bytes.ofText "filename" then { part with filename := some value }
  else part

/-- Reads the parameters of the content disposition, each behind a semicolon, to
the end of the line. -/
def readParameters (part : Part) : Bytes → Option Part
  | [] => some part
  | b :: rest =>
    if b = Byte.semicolon then
      let read := parameter rest
      readParameters (part.assign read.1 read.2.1) read.2.2
    else none
termination_by bytes => bytes.length
decreasing_by
  have := length_parameter_le rest
  simp only [List.length_cons]
  omega

/-- Reads the value of the content disposition. -/
def readDisposition (part : Part) (value : Bytes) : Except LineFault Part :=
  match Scan.either (Bytes.ofText "form-data") (Bytes.ofText "FORM-DATA") value with
  | none => .error .disposition
  | some n =>
    match part.readParameters (value.drop n) with
    | none => .error .disposition
    | some part => .ok part

/-- Reads one header line. -/
def readLine (part : Part) (line : Bytes) : Except LineFault Part :=
  let field := line.takeWhile (· != Byte.colon)
  match line.dropWhile (· != Byte.colon) with
  | [] => .error .noField
  | _ :: rest =>
    let value := rest.dropWhile Byte.isSpaceTab
    if field.isEmpty then .error .noField
    else if Bytes.lower field = Bytes.ofText "content-disposition" then
      part.readDisposition value
    else if Bytes.lower field = Bytes.ofText "content-type" then
      .ok { part with contentType := some (Utf8.decodeLossy (Bytes.trim value)) }
    else .ok part

end Part

end Octets.Form
