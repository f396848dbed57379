import Octets.Text.Utf8
import Mathlib.Tactic.SplitIfs

/-!
# Texts come back from their bytes

The bytes of a character are one piece, whatever follows them, so the bytes of a
text are read as that text. The arithmetic of the four forms is done on the
number of the character.

## Main results

* `Utf8.pieces_utf8EncodeChar_append` — the bytes of a character are a piece
* `Utf8.decodeLossy_ofText` — the bytes of a text are read as that text
* `Utf8.not_isTail_of_mem_head?_ofText` — no text begins inside a character
-/

namespace Octets.Utf8

variable {b c d e : UInt8} {rest : Bytes}

/-! ## Pieces by their first bytes -/

theorem isTail_iff : isTail b = true ↔ 0x80 ≤ b.toNat ∧ b.toNat ≤ 0xBF := by
  simp [isTail, UInt8.le_iff_toNat_le]

/-- The bytes that may follow a first byte, by their numbers. -/
theorem mayFollow_iff : mayFollow b c = true ↔
    0xC2 ≤ b.toNat ∧ b.toNat ≤ 0xF4 ∧ 0x80 ≤ c.toNat ∧ c.toNat ≤ 0xBF ∧
      (b.toNat = 0xE0 → 0xA0 ≤ c.toNat) ∧ (b.toNat = 0xED → c.toNat ≤ 0x9F) ∧
      (b.toNat = 0xF0 → 0x90 ≤ c.toNat) ∧ (b.toNat = 0xF4 → c.toNat ≤ 0x8F) := by
  simp only [mayFollow, isTail, UInt8.lt_iff_toNat_lt, UInt8.le_iff_toNat_le, beq_iff_eq,
    ← UInt8.toNat_inj, UInt8.reduceToNat]
  split_ifs <;> simp <;> omega

theorem not_ascii_of_mayFollow (follows : mayFollow b c = true) : ¬ b < 0x80 := by
  have above := (mayFollow_iff.mp follows).1
  rw [UInt8.lt_iff_toNat_lt]
  simp
  omega

theorem pieces_of_follows (follows : mayFollow b c = true) (short : b.toNat < 0xE0) :
    pieces (b :: c :: rest) = .char (join2 b c) [b, c] :: pieces rest := by
  have ascii := not_ascii_of_mayFollow follows
  have short' : b < 0xE0 := UInt8.lt_iff_toNat_lt.mpr short
  rw [pieces.eq_def]
  simp only [ascii, follows, short', Bool.not_true, Bool.false_eq_true, if_false, if_true]

theorem pieces_of_tail (follows : mayFollow b c = true) (tail : isTail d = true)
    (long : 0xE0 ≤ b.toNat) (short : b.toNat < 0xF0) :
    pieces (b :: c :: d :: rest) = .char (join3 b c d) [b, c, d] :: pieces rest := by
  have ascii := not_ascii_of_mayFollow follows
  have long' : ¬ b < 0xE0 := UInt8.not_lt.mpr (UInt8.le_iff_toNat_le.mpr long)
  have short' : b < 0xF0 := UInt8.lt_iff_toNat_lt.mpr short
  rw [pieces.eq_def]
  simp only [ascii, follows, tail, long', short', Bool.not_true, Bool.false_eq_true, if_false,
    if_true]

theorem pieces_of_tails (follows : mayFollow b c = true) (tail : isTail d = true)
    (tail' : isTail e = true) (long : 0xF0 ≤ b.toNat) :
    pieces (b :: c :: d :: e :: rest) = .char (join4 b c d e) [b, c, d, e] :: pieces rest := by
  have ascii := not_ascii_of_mayFollow follows
  have long' : ¬ b < 0xF0 := UInt8.not_lt.mpr (UInt8.le_iff_toNat_le.mpr long)
  have longer : ¬ b < 0xE0 :=
    UInt8.not_lt.mpr (UInt8.le_iff_toNat_le.mpr (Nat.le_trans (by decide) long))
  rw [pieces.eq_def]
  simp only [ascii, follows, tail, tail', long', longer, Bool.not_true, Bool.false_eq_true,
    if_false]

/-! ## The forms of characters -/

section Forms

variable {n : Nat}

/-- The last bytes of a form carry six bits each. -/
theorem toNat_tail : (UInt8.ofNat (n % 64 + 0x80)).toNat = n % 64 + 0x80 :=
  UInt8.toNat_ofNat_of_lt (by rw [UInt8.size]; omega)

theorem isTail_ofNat : isTail (.ofNat (n % 64 + 0x80)) = true := by
  rw [isTail_iff, toNat_tail]
  omega

theorem pieces_one (high : n ≤ 0x7F) (rest : Bytes) :
    pieces (.ofNat n :: rest) = .char (.ofNat n) [.ofNat n] :: pieces rest := by
  have first : (UInt8.ofNat n).toNat = n :=
    UInt8.toNat_ofNat_of_lt (by rw [UInt8.size]; omega)
  have ascii : UInt8.ofNat n < 0x80 := by
    rw [UInt8.lt_iff_toNat_lt, first]
    exact Nat.lt_succ_of_le high
  rw [pieces.eq_def]
  simp only [ascii, if_true, first]

theorem pieces_two (low : 0x7F < n) (high : n ≤ 0x7FF) (rest : Bytes) :
    pieces (.ofNat (n / 64 % 32 + 0xC0) :: .ofNat (n % 64 + 0x80) :: rest) =
      .char (.ofNat n) [.ofNat (n / 64 % 32 + 0xC0), .ofNat (n % 64 + 0x80)] :: pieces rest := by
  have first : (UInt8.ofNat (n / 64 % 32 + 0xC0)).toNat = n / 64 + 0xC0 := by simp; omega
  have follows : mayFollow (.ofNat (n / 64 % 32 + 0xC0)) (.ofNat (n % 64 + 0x80)) = true := by
    rw [mayFollow_iff, first, toNat_tail]
    omega
  rw [pieces_of_follows follows (by omega), join2, tailBits, first, toNat_tail]
  congr 3
  omega

theorem pieces_three (low : 0x7FF < n) (high : n ≤ 0xFFFF)
    (scalar : n < 0xD800 ∨ 0xDFFF < n) (rest : Bytes) :
    pieces (.ofNat (n / 4096 % 16 + 0xE0) :: .ofNat (n / 64 % 64 + 0x80) ::
        .ofNat (n % 64 + 0x80) :: rest) =
      .char (.ofNat n) [.ofNat (n / 4096 % 16 + 0xE0), .ofNat (n / 64 % 64 + 0x80),
        .ofNat (n % 64 + 0x80)] :: pieces rest := by
  have first : (UInt8.ofNat (n / 4096 % 16 + 0xE0)).toNat = n / 4096 + 0xE0 := by simp; omega
  -- Without the surrogates the second byte behind 0xED keeps to its narrower range.
  have follows : mayFollow (.ofNat (n / 4096 % 16 + 0xE0)) (.ofNat (n / 64 % 64 + 0x80)) =
      true := by
    rw [mayFollow_iff, first, toNat_tail]
    omega
  rw [pieces_of_tail follows isTail_ofNat (by omega) (by omega), join3, tailBits, tailBits, first,
    toNat_tail, toNat_tail]
  congr 3
  omega

theorem pieces_four (low : 0xFFFF < n) (high : n ≤ 0x10FFFF) (rest : Bytes) :
    pieces (.ofNat (n / 262144 % 8 + 0xF0) :: .ofNat (n / 4096 % 64 + 0x80) ::
        .ofNat (n / 64 % 64 + 0x80) :: .ofNat (n % 64 + 0x80) :: rest) =
      .char (.ofNat n) [.ofNat (n / 262144 % 8 + 0xF0), .ofNat (n / 4096 % 64 + 0x80),
        .ofNat (n / 64 % 64 + 0x80), .ofNat (n % 64 + 0x80)] :: pieces rest := by
  have first : (UInt8.ofNat (n / 262144 % 8 + 0xF0)).toNat = n / 262144 + 0xF0 := by simp; omega
  have follows : mayFollow (.ofNat (n / 262144 % 8 + 0xF0)) (.ofNat (n / 4096 % 64 + 0x80)) =
      true := by
    rw [mayFollow_iff, first, toNat_tail]
    omega
  rw [pieces_of_tails follows isTail_ofNat isTail_ofNat (by omega), join4, tailBits, tailBits,
    tailBits, first, toNat_tail, toNat_tail, toNat_tail]
  congr 3
  omega

end Forms

/-! ## Characters and texts -/

/-- The bytes of a character are a piece, whatever follows them. -/
theorem pieces_utf8EncodeChar_append (c : Char) (rest : Bytes) :
    pieces (String.utf8EncodeChar c ++ rest) =
      .char c (String.utf8EncodeChar c) :: pieces rest := by
  have valid : c.val.toNat < 0xD800 ∨ 0xDFFF < c.val.toNat ∧ c.val.toNat < 0x110000 := c.valid
  have char : Char.ofNat c.val.toNat = c := Char.ofNat_toNat c
  simp only [String.utf8EncodeChar]
  generalize c.val.toNat = n at valid char
  subst char
  split_ifs with one two three
  · exact pieces_one one rest
  · exact pieces_two (by omega) two rest
  · exact pieces_three (by omega) three (valid.imp_right And.left) rest
  · exact pieces_four (by omega) (by omega) rest

theorem ofText_eq_flatMap (text : String) :
    Bytes.ofText text = text.toList.flatMap String.utf8EncodeChar := by
  have bytes := String.toByteArray_ofList (l := text.toList)
  rw [String.ofList_toList] at bytes
  rw [Bytes.ofText, bytes]
  exact congrArg Array.toList List.data_toByteArray

theorem map_toChar_pieces_flatMap (chars : List Char) :
    (pieces (chars.flatMap String.utf8EncodeChar)).map Piece.toChar = chars := by
  induction chars with
  | nil => rfl
  | cons c chars ih =>
    rw [List.flatMap_cons, pieces_utf8EncodeChar_append, List.map_cons, ih]
    rfl

/-- The first byte of a character is no byte that continues one. -/
theorem exists_utf8EncodeChar_eq_cons (c : Char) :
    ∃ b rest, String.utf8EncodeChar c = b :: rest ∧ isTail b = false := by
  have valid : c.val.toNat < 0xD800 ∨ 0xDFFF < c.val.toNat ∧ c.val.toNat < 0x110000 := c.valid
  simp only [String.utf8EncodeChar, ← Bool.not_eq_true, isTail_iff]
  generalize c.val.toNat = n at valid
  split_ifs with one two three
  · exact ⟨_, _, rfl, by simp; omega⟩
  · exact ⟨_, _, rfl, by simp; omega⟩
  · exact ⟨_, _, rfl, by simp; omega⟩
  · exact ⟨_, _, rfl, by simp; omega⟩

theorem not_isTail_of_mem_head?_ofText {text : String} (first : b ∈ (Bytes.ofText text).head?) :
    isTail b = false := by
  rw [ofText_eq_flatMap] at first
  cases chars : text.toList with
  | nil => simp [chars] at first
  | cons c rest =>
    obtain ⟨d, tail, encoded, start⟩ := exists_utf8EncodeChar_eq_cons c
    rw [chars, List.flatMap_cons, encoded] at first
    obtain rfl : d = b := by simpa using first
    exact start

/-- The bytes of a text are read as that text. -/
theorem decodeLossy_ofText (text : String) : decodeLossy (Bytes.ofText text) = text := by
  rw [decodeLossy, ofText_eq_flatMap, map_toChar_pieces_flatMap, String.ofList_toList]

end Octets.Utf8
