import Octets.Proofs.Bytes
import Octets.Proofs.Entries
import Octets.Request.Head

/-!
# The syntax of request heads

Which byte strings are request heads, and what they say, without a word about how
they are read. All tokens of a head are words.

## Main definitions

* `Head.Tokens`, `Head.decodeFields` — the tokens of a head, and its decoded fields
* `Head.WrittenFields`, `Head.Written` — how tokens are written
* `Head.IsHead` — the byte strings that are heads
-/

namespace Octets.Head

/-- A method: letters from A to Z. -/
def IsMethod : Bytes → Prop :=
  Bytes.IsWord (fun b => 0x41 ≤ b ∧ b ≤ 0x5A) fun b => 0x41 ≤ b ∧ b ≤ 0x5A

/-- A target: bytes above the space. -/
def IsUri : Bytes → Prop := Bytes.IsWord (0x20 < ·) (0x20 < ·)

/-- A version: an H, then bytes above the space. -/
def IsVersion : Bytes → Prop := Bytes.IsWord (· = 0x48) (0x20 < ·)

/-- A field name: an ASCII letter, then bytes above the space other than a
colon. -/
def IsFieldName : Bytes → Prop :=
  Bytes.IsWord (fun b => (0x41 ≤ b ∧ b ≤ 0x5A) ∨ (0x61 ≤ b ∧ b ≤ 0x7A)) fun b => 0x20 < b ∧ b ≠ 0x3A

/-- A field value: a byte above the space, then bytes that are at least a
space. -/
def IsFieldValue : Bytes → Prop := Bytes.IsWord (0x20 < ·) (0x20 ≤ ·)

/-- The end of a line: a line feed, alone or behind a carriage return. -/
def IsLineEnd (bytes : Bytes) : Prop := bytes = [0x0A] ∨ bytes = [0x0D, 0x0A]

/-- Some spaces. -/
def spaces (n : Nat) : Bytes := List.replicate n 0x20

/-- The tokens of a head. -/
structure Tokens where
  method : Bytes
  uri : Bytes
  version : Bytes
  fields : List (Bytes × Bytes)

/-- Fields with their names and values decoded. -/
def decodeFields (fields : List (Bytes × Bytes)) : List (String × String) :=
  fields.map fun field => (Utf8.decodeLossy field.1, Utf8.decodeLossy field.2)

/-- What a head with these tokens is read as. -/
def Tokens.head (tokens : Tokens) : Head where
  method := Utf8.decodeLossy tokens.method
  uri := Utf8.decodeLossy tokens.uri
  version := Utf8.decodeLossy tokens.version
  fields := Std.TreeMap.insertMany ∅ (decodeFields tokens.fields)

/-- How fields are written, up to and including the empty line behind them. -/
inductive WrittenFields : List (Bytes × Bytes) → Bytes → Prop
  | nil {lineEnd : Bytes} : IsLineEnd lineEnd → WrittenFields [] lineEnd
  | cons {key value lineEnd rest : Bytes} {fields : List (Bytes × Bytes)} (before behind : Nat) :
      IsFieldName key → IsFieldValue value → IsLineEnd lineEnd → WrittenFields fields rest →
        WrittenFields ((key, value) :: fields)
          (key ++ spaces before ++ 0x3A :: spaces behind ++ value ++ lineEnd ++ rest)

/-- How the tokens of a head are written. -/
inductive Written : Tokens → Bytes → Prop
  | intro {method uri version lineEnd rest : Bytes} {fields : List (Bytes × Bytes)}
      (beforeUri beforeVersion behind : Nat) :
      IsMethod method → IsUri uri → IsVersion version → IsLineEnd lineEnd →
        WrittenFields fields rest →
          Written ⟨method, uri, version, fields⟩
            (method ++ spaces (beforeUri + 1) ++ uri ++ spaces (beforeVersion + 1) ++ version ++
              spaces behind ++ lineEnd ++ rest)

/-- A byte string that is a head. -/
def IsHead (bytes : Bytes) : Prop := ∃ tokens, Written tokens bytes

end Octets.Head
