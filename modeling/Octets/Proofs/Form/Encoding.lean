import Mathlib.Data.List.TakeWhile
import Octets.Form.Encoding
import Octets.Proofs.Cursor.Ahead

/-!
# Form encoding, byte by byte

A byte string is encoded byte by byte, and most bytes may be spelled in several ways: any byte
as an escape, with digits of either case, a space also as a plus sign, and any byte but the plus
sign and the percent sign also as itself. Decoding undoes every such choice, and what encodes no
byte string is refused. The digits of an escape are no percent signs, so all that can be wrong is
a percent sign without two digits behind it.

The decoder reads whole stretches through a cursor, with a token begun anew behind each of them.
That comes to the same as a recursion on the bytes.

## Main definitions

* `Form.IsHexDigit` — the hexadecimal digits, with their values
* `Form.Spells`, `Form.Encodes` — how bytes and byte strings are encoded
* `Form.decodeBytes` — decoding as a recursion on the bytes

## Main results

* `decodeFrom_eq`, `decode_eq_decodeBytes` — decoding in stretches and byte by byte
* `decode_eq_some_iff` — decoding is the inverse of every way of encoding
* `decode_eq_none_iff` — what cannot be decoded
-/

namespace Octets.Form

variable {b high low : UInt8} {value : Nat} {bytes encoded piece rest : Bytes}

/-- A hexadecimal digit of either case, and its value. -/
def IsHexDigit (b : UInt8) (value : Nat) : Prop :=
  (Bytes.ofText "0123456789abcdef")[value]? = some b ∨
    (Bytes.ofText "0123456789ABCDEF")[value]? = some b

instance (b : UInt8) (value : Nat) : Decidable (IsHexDigit b value) :=
  inferInstanceAs (Decidable (_ ∨ _))

/-- How a byte may be encoded. -/
inductive Spells : UInt8 → Bytes → Prop
  | plus : Spells Byte.space [Byte.plus]
  | escape {b high low : UInt8} :
      IsHexDigit high (b.toNat / 16) → IsHexDigit low (b.toNat % 16) →
        Spells b [Byte.percent, high, low]
  | plain {b : UInt8} : b ≠ Byte.plus → b ≠ Byte.percent → Spells b [b]

/-- How a byte string may be encoded: byte by byte. -/
inductive Encodes : Bytes → Bytes → Prop
  | nil : Encodes [] []
  | cons {b : UInt8} {bytes piece rest : Bytes} :
      Spells b piece → Encodes bytes rest → Encodes (b :: bytes) (piece ++ rest)

/-- Whether two hexadecimal digits come first. -/
def BeginsWithDigits (bytes : Bytes) : Prop :=
  ∃ high low rest, bytes = high :: low :: rest ∧
    (∃ value, IsHexDigit high value) ∧ ∃ value, IsHexDigit low value

/-- Some percent sign has no two digits behind it. -/
def HasStrayPercent (encoded : Bytes) : Prop :=
  ∃ front back, encoded = front ++ Byte.percent :: back ∧ ¬ BeginsWithDigits back

/-! ## Digits -/

theorem IsHexDigit.value_lt (digit : IsHexDigit b value) : value < 16 := by
  obtain small | capital := digit
  · exact (List.getElem?_eq_some_iff.mp small).1
  · exact (List.getElem?_eq_some_iff.mp capital).1

theorem isHexDigit_iff :
    IsHexDigit b value ↔ Byte.isHex b = true ∧ (Byte.hexValue b).toNat = value := by
  have listed : ∀ b ∈ Byte.all, Byte.isHex b = true → IsHexDigit b (Byte.hexValue b).toNat := by
    decide +kernel
  have valued : ∀ value < 16, ∀ b ∈ Byte.all, IsHexDigit b value →
      Byte.isHex b = true ∧ (Byte.hexValue b).toNat = value := by
    decide +kernel
  exact ⟨fun digit => valued value digit.value_lt b (Byte.mem_all b) digit,
    fun ⟨hex, same⟩ => same ▸ listed b (Byte.mem_all b) hex⟩

theorem exists_isHexDigit_iff : (∃ value, IsHexDigit b value) ↔ Byte.isHex b = true :=
  ⟨fun ⟨_, digit⟩ => (isHexDigit_iff.mp digit).1, fun hex => ⟨_, isHexDigit_iff.mpr ⟨hex, rfl⟩⟩⟩

/-- Two digits write the byte whose quotient and remainder by sixteen they are. -/
theorem hexPair_eq_iff (left : IsHexDigit high value) {value' : Nat}
    (right : IsHexDigit low value') :
    hexPair high low = b ↔ b.toNat / 16 = value ∧ b.toNat % 16 = value' := by
  have bounds := And.intro left.value_lt right.value_lt
  have written : (hexPair high low).toNat = value * 16 + value' := by
    have same := And.intro (isHexDigit_iff.mp left).2 (isHexDigit_iff.mp right).2
    rw [hexPair, UInt8.toNat_add, UInt8.toNat_mul, same.1, same.2]
    show (value * 16 % 256 + value') % 256 = value * 16 + value'
    omega
  rw [← UInt8.toNat_inj, written]
  omega

/-! ## Stretches and single bytes -/

/-- The bytes that an encoded byte string stands for, told byte by byte. -/
def decodeBytes : Bytes → Option Bytes
  | [] => some []
  | b :: rest =>
    if b = Byte.plus then (decodeBytes rest).map (Byte.space :: ·)
    else if b = Byte.percent then
      match rest with
      | high :: low :: rest =>
        if Byte.isHex high && Byte.isHex low then (decodeBytes rest).map (hexPair high low :: ·)
        else none
      | _ => none
    else (decodeBytes rest).map (b :: ·)

theorem decodeBytes_plus_cons (rest : Bytes) :
    decodeBytes (Byte.plus :: rest) = (decodeBytes rest).map (Byte.space :: ·) := by
  rw [decodeBytes.eq_def]
  exact if_pos rfl

theorem decodeBytes_percent_cons_of_digits (left : Byte.isHex high = true)
    (right : Byte.isHex low = true) (rest : Bytes) :
    decodeBytes (Byte.percent :: high :: low :: rest) =
      (decodeBytes rest).map (hexPair high low :: ·) := by
  have other : Byte.percent ≠ Byte.plus := by decide
  have both : (Byte.isHex high && Byte.isHex low) = true := by rw [left, right, Bool.true_and]
  rw [decodeBytes, if_neg other, if_pos rfl, if_pos both]

theorem decodeBytes_percent_cons_of_not_digits
    (refused : ∀ high low behind, rest = high :: low :: behind →
      ¬ (Byte.isHex high = true ∧ Byte.isHex low = true)) :
    decodeBytes (Byte.percent :: rest) = none := by
  have other : Byte.percent ≠ Byte.plus := by decide
  rw [decodeBytes.eq_def]
  simp only [if_neg other, if_true]
  split
  · exact if_neg fun both => refused _ _ _ rfl (Bool.and_eq_true_iff.mp both)
  · rfl

theorem decodeBytes_cons_of_ne (plus : b ≠ Byte.plus) (percent : b ≠ Byte.percent)
    (rest : Bytes) : decodeBytes (b :: rest) = (decodeBytes rest).map (b :: ·) := by
  rw [decodeBytes.eq_def]
  simp only [if_neg plus, if_neg percent]

/-- A stretch of bytes that stand for themselves. -/
theorem decodeBytes_append (plain : ∀ b ∈ piece, isMark b = false) (rest : Bytes) :
    decodeBytes (piece ++ rest) = (decodeBytes rest).map (piece ++ ·) := by
  induction piece with
  | nil => simp
  | cons b piece ih =>
    obtain ⟨plus, percent⟩ : b ≠ Byte.plus ∧ b ≠ Byte.percent := by
      simpa [isMark] using plain b List.mem_cons_self
    rw [List.cons_append, decodeBytes_cons_of_ne plus percent,
      ih fun c inside => plain c (List.mem_cons_of_mem b inside), Option.map_map]
    rfl

section Cursor

variable {c after : Cursor} {out : Bytes}

/-- What is decoded next stands behind what has been decoded before. -/
theorem map_append_map_append (out front : Bytes) (behind : Option Bytes) :
    (behind.map (front ++ ·)).map (out ++ ·) = behind.map (out ++ front ++ ·) := by
  cases behind <;> simp

/-- A stretch that is taken is the next token, and it stands for itself. -/
theorem decodeBytes_of_read?_upTo (begun : c.start = c.pos)
    (found : c.read? (Scan.upTo isMark) = some after) :
    decodeBytes c.rest = (decodeBytes after.beginToken.rest).map (after.token ++ ·) := by
  have behind : after.beginToken.rest = after.rest := rfl
  obtain ⟨token, left⟩ := Cursor.of_read?_run begun found
  have plain : ∀ b ∈ c.rest.takeWhile fun b => !isMark b, isMark b = false := fun b inside => by
    have fits := List.mem_takeWhile_imp (p := fun b => !isMark b) inside
    simpa using fits
  rw [behind, token, left, ← decodeBytes_append plain, List.takeWhile_append_dropWhile]

/-- Where no stretch comes next, a mark does. -/
theorem isMark_of_read?_upTo (unread : c.rest = b :: rest)
    (none_left : c.read? (Scan.upTo isMark) = none) : isMark b = true := by
  have empty := (Cursor.read?_run c fun b => !isMark b).symm.trans none_left
  cases plain : isMark b with
  | true => rfl
  | false => simp [unread, plain] at empty

theorem digit?_cons (unread : c.rest = b :: rest) :
    digit? c = if Byte.isHex b then some (b, c.advance 1) else none := by
  simp [digit?, Cursor.next, Cursor.peek, unread]

theorem of_digit? (read : digit? c = some (b, after)) :
    Byte.isHex b = true ∧ after = c.advance 1 ∧ c.rest = b :: after.rest := by
  cases unread : c.rest with
  | nil => simp [digit?, Cursor.next, Cursor.peek, unread] at read
  | cons first rest =>
    rw [digit?_cons unread] at read
    split at read <;> cases read
    exact ⟨‹_›, rfl, by rw [Cursor.rest_advance, unread]; rfl⟩

/-- Where neither a stretch nor a plus sign comes next, a percent sign does, and it is taken. -/
theorem percent_of_noStretch (wf : c.WellFormed) (unread : ¬ c.atEnd = true)
    (noStretch : c.read? (Scan.upTo isMark) = none)
    (noPlus : c.read? (Scan.byte (· == Byte.plus)) = none) :
    c.rest = Byte.percent :: (c.advance 1).rest ∧
      (c.accept (Scan.byte (· == Byte.percent))).2 = c.advance 1 := by
  rw [Cursor.atEnd_eq_isEmpty_rest wf, List.isEmpty_iff] at unread
  obtain ⟨b, rest, unread⟩ := List.exists_cons_of_ne_nil unread
  obtain rfl : b = Byte.percent := by
    have mark := isMark_of_read?_upTo unread noStretch
    rw [Cursor.read?_byte unread] at noPlus
    simpa [isMark, show b ≠ Byte.plus by simpa using noPlus] using mark
  exact ⟨by simp [Cursor.rest_advance, unread], by simp [Cursor.accept, Cursor.read?_byte unread]⟩

/-- Read in stretches, a byte string is decoded as it is byte by byte. -/
theorem decodeFrom_eq (wf : c.WellFormed) (begun : c.start = c.pos) (out : Bytes) :
    decodeFrom c out = (decodeBytes c.rest).map (out ++ ·) := by
  fun_induction decodeFrom c out with
  | case1 c out ended =>
    rw [Cursor.atEnd_eq_isEmpty_rest wf, List.isEmpty_iff] at ended
    simp [ended, decodeBytes]
  | case2 c out _ after plain ih =>
    obtain ⟨n, ⟨inside, rfl⟩, _⟩ := Cursor.isAhead_of_read? (Scan.isBounded_run _) plain
    rw [decodeBytes_of_read?_upTo begun plain, ih (wf.advance inside).beginToken rfl,
      map_append_map_append]
  | case3 c out _ _ after plus ih =>
    obtain ⟨atMark, rfl⟩ := Cursor.of_read?_byte plus
    have wf' := (wf.advance (n := 1) (by simp [atMark])).beginToken
    rw [ih wf' rfl, atMark, decodeBytes_plus_cons]
    exact (map_append_map_append out [Byte.space] _).symm
  | case4 c out unread noStretch noPlus refused =>
    obtain ⟨atMark, taken⟩ := percent_of_noStretch wf unread noStretch noPlus
    rw [taken] at refused
    rw [atMark, decodeBytes_percent_cons_of_not_digits, Option.map_none]
    rintro high low behind left ⟨hex, _⟩
    simp [digit?_cons left, hex] at refused
  | case5 c out unread noStretch noPlus high between read refused =>
    obtain ⟨atMark, taken⟩ := percent_of_noStretch wf unread noStretch noPlus
    rw [taken] at read
    obtain ⟨_, _, left⟩ := of_digit? read
    rw [atMark, left, decodeBytes_percent_cons_of_not_digits, Option.map_none]
    rintro _ low behind same ⟨_, hex⟩
    simp [digit?_cons (List.cons.inj same).2, hex] at refused
  | case6 c out unread noStretch noPlus high between read low after read' ih =>
    obtain ⟨atMark, taken⟩ := percent_of_noStretch wf unread noStretch noPlus
    rw [taken] at read
    obtain ⟨hex, rfl, left⟩ := of_digit? read
    obtain ⟨hex', rfl, left'⟩ := of_digit? read'
    have wf' : (c.advance 1).WellFormed := wf.advance (by simp [atMark])
    have wf'' := (wf'.advance (n := 1) (by simp [left])).advance (n := 1) (by simp [left'])
    rw [ih wf''.beginToken rfl, atMark, left, left', decodeBytes_percent_cons_of_digits hex hex']
    exact (map_append_map_append out [hexPair high low] _).symm

end Cursor

/-- Decoding in stretches comes to the same as byte by byte. -/
theorem decode_eq_decodeBytes (encoded : Bytes) : decode encoded = decodeBytes encoded := by
  rw [decode, decodeFrom_eq (Cursor.wellFormed_ofBytes _) rfl, Cursor.rest_ofBytes]
  simp

/-! ## Decoding -/

/-- An encoded byte is decoded, whatever stands behind it. -/
theorem Spells.decodeBytes_append (spelled : Spells b piece) (rest : Bytes) :
    decodeBytes (piece ++ rest) = (decodeBytes rest).map (b :: ·) := by
  cases spelled with
  | plus => exact decodeBytes_plus_cons rest
  | escape left right =>
    have written := (hexPair_eq_iff (b := b) left right).mpr ⟨rfl, rfl⟩
    rw [← written]
    exact decodeBytes_percent_cons_of_digits (isHexDigit_iff.mp left).1
      (isHexDigit_iff.mp right).1 rest
  | plain plus percent => exact decodeBytes_cons_of_ne plus percent rest

theorem Encodes.decodeBytes_eq (encodes : Encodes bytes encoded) :
    decodeBytes encoded = some bytes := by
  induction encodes with
  | nil => rfl
  | cons spelled _ ih => rw [spelled.decodeBytes_append, ih, Option.map_some]

theorem encodes_of_decodeBytes (decoded : decodeBytes encoded = some bytes) :
    Encodes bytes encoded := by
  -- Each branch takes the spelling of one byte off.
  fun_induction decodeBytes encoded generalizing bytes with
  | case1 =>
    cases decoded
    exact .nil
  | case2 rest ih =>
    obtain ⟨behind, read, rfl⟩ := Option.map_eq_some_iff.mp decoded
    exact .cons .plus (ih read)
  | case3 high low rest digits _ ih =>
    obtain ⟨behind, read, rfl⟩ := Option.map_eq_some_iff.mp decoded
    rw [Bool.and_eq_true] at digits
    have left := isHexDigit_iff.mpr ⟨digits.1, rfl⟩
    have right := isHexDigit_iff.mpr ⟨digits.2, rfl⟩
    obtain ⟨quotient, remainder⟩ := (hexPair_eq_iff left right).mp rfl
    exact .cons (.escape (quotient ▸ left) (remainder ▸ right)) (ih read)
  | case4 => cases decoded
  | case5 => cases decoded
  | case6 b rest plus percent ih =>
    obtain ⟨behind, read, rfl⟩ := Option.map_eq_some_iff.mp decoded
    exact .cons (.plain plus percent) (ih read)

/-- Decoding is the inverse of every way of encoding. -/
theorem decode_eq_some_iff : decode encoded = some bytes ↔ Encodes bytes encoded := by
  rw [decode_eq_decodeBytes]
  exact ⟨encodes_of_decodeBytes, Encodes.decodeBytes_eq⟩

/-! ## Stray percent signs -/

theorem HasStrayPercent.append (stray : HasStrayPercent encoded) (front : Bytes) :
    HasStrayPercent (front ++ encoded) := by
  obtain ⟨between, back, rfl, none⟩ := stray
  exact ⟨front ++ between, back, (List.append_assoc _ _ _).symm, none⟩

/-- A byte that is no percent sign, and a percent sign with its digits, do not matter. -/
theorem HasStrayPercent.of_cons (stray : HasStrayPercent (b :: rest))
    (fine : b = Byte.percent → BeginsWithDigits rest) : HasStrayPercent rest := by
  obtain ⟨_ | ⟨c, front⟩, back, cut, none⟩ := stray
  · obtain ⟨rfl, rfl⟩ := List.cons.inj cut
    exact absurd (fine rfl) none
  · exact ⟨front, back, (List.cons.inj cut).2, none⟩

/-- The encoding of a byte holds a percent sign only with its digits behind it. -/
theorem Spells.hasStrayPercent_of_append (spelled : Spells b piece)
    (stray : HasStrayPercent (piece ++ rest)) : HasStrayPercent rest := by
  -- A digit is no percent sign.
  have other {c : UInt8} {value : Nat} (digit : IsHexDigit c value) (more : Bytes) :
      c = Byte.percent → BeginsWithDigits more := by
    rintro rfl
    cases (isHexDigit_iff.mp digit).1
  cases spelled with
  | plus => exact stray.of_cons fun same => absurd same (by decide)
  | plain _ percent => exact stray.of_cons fun same => absurd same percent
  | escape left right =>
    have behind := stray.of_cons fun _ => ⟨_, _, rest, rfl, ⟨_, left⟩, _, right⟩
    exact (behind.of_cons (other left _)).of_cons (other right _)

theorem Encodes.not_hasStrayPercent (encodes : Encodes bytes encoded) :
    ¬ HasStrayPercent encoded := by
  induction encodes with
  | nil =>
    rintro ⟨front, back, cut, _⟩
    simp at cut
  | cons spelled _ ih => exact fun stray => ih (spelled.hasStrayPercent_of_append stray)

theorem hasStrayPercent_of_decodeBytes (refused : decodeBytes encoded = none) :
    HasStrayPercent encoded := by
  fun_induction decodeBytes encoded with
  | case1 => cases refused
  | case2 rest ih => exact (ih (Option.map_eq_none_iff.mp refused)).append [_]
  | case3 high low rest _ _ ih => exact (ih (Option.map_eq_none_iff.mp refused)).append [_, _, _]
  | case4 high low rest digits =>
    refine ⟨[], _, rfl, ?_⟩
    rintro ⟨_, _, _, same, left, right⟩
    obtain ⟨rfl, same'⟩ := List.cons.inj same
    obtain ⟨rfl, -⟩ := List.cons.inj same'
    rw [exists_isHexDigit_iff] at left right
    exact digits (Bool.and_eq_true_iff.mpr ⟨left, right⟩)
  | case5 rest short =>
    refine ⟨[], _, rfl, ?_⟩
    rintro ⟨high, low, rest, cut, _⟩
    exact short high low rest cut
  | case6 b rest _ _ ih => exact (ih (Option.map_eq_none_iff.mp refused)).append [_]

/-- Encoded bytes cannot be decoded exactly if a percent sign has no two digits behind it. -/
theorem decode_eq_none_iff : decode encoded = none ↔ HasStrayPercent encoded := by
  refine ⟨fun refused => ?_, fun stray => ?_⟩
  · exact hasStrayPercent_of_decodeBytes ((decode_eq_decodeBytes encoded).symm.trans refused)
  · cases decoded : decode encoded with
    | none => rfl
    | some bytes => exact absurd stray (decode_eq_some_iff.mp decoded).not_hasStrayPercent

/-- Decoding undoes every way of encoding byte by byte, and refuses what has a percent sign
without two digits behind it, which encodes nothing. -/
theorem decode_encoded (encoded : Bytes) :
    (decode encoded = none ↔ HasStrayPercent encoded) ∧
      ∀ bytes, decode encoded = some bytes ↔ Encodes bytes encoded :=
  ⟨decode_eq_none_iff, fun _ => decode_eq_some_iff⟩

/-- Two escapes in a row, between plus signs that are spelled in both ways. -/
example : decode (Bytes.ofText "+%e2%8A+%2b") = some [0x20, 0xE2, 0x8A, 0x20, 0x2B] := by
  decide +kernel

end Octets.Form
