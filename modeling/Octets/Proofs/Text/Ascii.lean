import Octets.Proofs.Text.Utf8

/-!
# The ASCII bytes of a text

An ASCII character is its own single byte, and no other character has an ASCII byte
among its bytes. So a grammar whose delimiters are ASCII may look for them in the bytes
of a text as well as in its characters.

## Main results

* `Utf8.eq_of_mem_utf8EncodeChar` — an ASCII byte stands for itself
* `Utf8.ofText_ofList_of_ascii` — the bytes of an ASCII text
-/

namespace Octets.Utf8

variable {c d : Char} {b : UInt8}

theorem utf8EncodeChar_of_ascii (ascii : c.toNat < 0x80) :
    String.utf8EncodeChar c = [.ofNat c.toNat] := by
  have one : c.val.toNat ≤ 0x7F := Nat.le_of_lt_succ ascii
  simp only [String.utf8EncodeChar, if_pos one]
  rfl

/-- An ASCII byte stands for itself wherever it occurs. -/
theorem eq_of_mem_utf8EncodeChar (member : b ∈ String.utf8EncodeChar c)
    (ascii : b.toNat < 0x80) : b.toNat = c.toNat := by
  have valid : c.val.toNat < 0xD800 ∨ 0xDFFF < c.val.toNat ∧ c.val.toNat < 0x110000 := c.valid
  simp only [String.utf8EncodeChar] at member
  change b.toNat = c.val.toNat
  generalize c.val.toNat = n at valid member
  split_ifs at member with one two three
  all_goals
    simp only [List.mem_cons, List.not_mem_nil, or_false] at member
  · subst member
    simp
    omega
  · obtain rfl | rfl := member <;> simp at ascii <;> omega
  · obtain rfl | rfl | rfl := member <;> simp at ascii <;> omega
  · obtain rfl | rfl | rfl | rfl := member <;> simp at ascii <;> omega

theorem ofText_append (s t : String) :
    Bytes.ofText (s ++ t) = Bytes.ofText s ++ Bytes.ofText t := by
  rw [ofText_eq_flatMap, ofText_eq_flatMap, ofText_eq_flatMap, String.toList_append,
    List.flatMap_append]

theorem ofText_join (texts : List String) :
    Bytes.ofText (String.join texts) = texts.flatMap Bytes.ofText := by
  induction texts with
  | nil => rfl
  | cons text texts ih => rw [String.join_cons, ofText_append, ih, List.flatMap_cons]

theorem ofText_ofList (chars : List Char) :
    Bytes.ofText (String.ofList chars) = chars.flatMap String.utf8EncodeChar := by
  rw [ofText_eq_flatMap, String.toList_ofList]

/-- An ASCII byte of a text is a character of it. -/
theorem mem_toList_of_mem_ofText {text : String} (member : b ∈ Bytes.ofText text)
    (ascii : b.toNat < 0x80) : Char.ofNat b.toNat ∈ text.toList := by
  rw [ofText_eq_flatMap, List.mem_flatMap] at member
  obtain ⟨c, member, encoded⟩ := member
  rw [eq_of_mem_utf8EncodeChar encoded ascii, Char.ofNat_toNat]
  exact member

/-- The bytes of an ASCII text are its characters. -/
theorem ofText_ofList_of_ascii {chars : List Char} (ascii : ∀ c ∈ chars, c.toNat < 0x80) :
    Bytes.ofText (String.ofList chars) = chars.map fun c => .ofNat c.toNat := by
  rw [ofText_ofList, List.map_eq_flatMap, List.flatMap_def, List.flatMap_def]
  exact congrArg List.flatten
    (List.map_congr_left fun c member => utf8EncodeChar_of_ascii (ascii c member))

end Octets.Utf8
