import Octets.Form.Body

/-!
# The syntax of encoded forms

How pairs of a key and a value are written as an encoded form, without a word about
how it is read. A key goes up to the first equals sign and a value up to the first
ampersand, so a key may hold ampersands and a value equals signs. Keys are never
empty. Behind the last pair there may be an ampersand, or a mark that ends the form
before the bytes do.

## Main definitions

* `Form.Decodes` — the text that an encoded byte string stands for
* `Form.WrittenKey`, `Form.WrittenValue`, `Form.WrittenPairs` — how pairs are written
* `Form.EncodedEnd`, `Form.WrittenEncoded` — how encoded forms are written
-/

namespace Octets.Form

/-- The text that an encoded byte string stands for. -/
def Decodes (bytes : Bytes) (text : String) : Prop :=
  ∃ decoded, decode bytes = some decoded ∧ text = Utf8.decodeLossy decoded

/-- How a key is written: with at least one byte, and no equals sign. -/
def WrittenKey (key : String) (bytes : Bytes) : Prop :=
  bytes ≠ [] ∧ (∀ b ∈ bytes, 0x20 ≤ b ∧ b ≠ 0x3D) ∧ Decodes bytes key

/-- How a value is written: without an ampersand. -/
def WrittenValue (value : String) (bytes : Bytes) : Prop :=
  (∀ b ∈ bytes, 0x20 ≤ b ∧ b ≠ 0x26) ∧ Decodes bytes value

/-- How pairs are written: key, equals sign, value, with ampersands in between. -/
inductive WrittenPairs : List (String × String) → Bytes → Prop
  | last {key value : String} {name content : Bytes} :
      WrittenKey key name → WrittenValue value content →
        WrittenPairs [(key, value)] (name ++ 0x3D :: content)
  | cons {key value : String} {name content rest : Bytes} {pairs : List (String × String)} :
      WrittenKey key name → WrittenValue value content → WrittenPairs pairs rest →
        WrittenPairs ((key, value) :: pairs) (name ++ 0x3D :: (content ++ 0x26 :: rest))

/-- What may stand behind the pairs of a form, and whether it marks their end: a
carriage return or a zero byte does, and then anything may follow. -/
inductive EncodedEnd : Bool → Bytes → Prop
  | nothing : EncodedEnd false []
  | ampersand : EncodedEnd false [0x26]
  | mark {b : UInt8} (rest : Bytes) : b = 0x0D ∨ b = 0x00 → EncodedEnd true (b :: rest)

/-- How an encoded form is written, and whether its end is marked. The form without
pairs is empty. -/
inductive WrittenEncoded : Bool → List (String × String) → Bytes → Prop
  | empty : WrittenEncoded false [] []
  | pairs {marked : Bool} {pairs : List (String × String)} {front back : Bytes} :
      WrittenPairs pairs front → EncodedEnd marked back →
        WrittenEncoded marked pairs (front ++ back)

end Octets.Form
