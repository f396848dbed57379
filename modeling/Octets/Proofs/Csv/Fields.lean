import Octets.Csv.Reader
import Octets.Proofs.Cursor.Ahead

/-!
# Fields, byte by byte

The reader takes a field in stretches, with a token begun anew behind every doubled quote and
behind the closing one. What it comes to is also told by a recursion on the bytes, wherever in a
byte string the cursor stands.

## Main definitions

* `Csv.plainBytes`, `Csv.quotedBytes`, `Csv.fieldBytes` — fields as a recursion on the bytes

## Main results

* `quotedFrom_eq`, `fieldAt_eq`, `readField_eq` — fields in stretches and byte by byte
-/

namespace Octets.Csv

/-- The bytes before the end of a field without quotes, and those behind them. -/
def plainBytes (bytes : Bytes) : Bytes × Bytes :=
  (bytes.takeWhile fun b => !isFieldEnd b, bytes.dropWhile fun b => !isFieldEnd b)

/-- The bytes up to the closing quote, and those behind it; `none` if there is no
closing quote. -/
def quotedBytes : Bytes → Option (Bytes × Bytes)
  | [] => none
  | [b] => if b = Byte.doubleQuote then some ([], []) else none
  | b :: c :: rest =>
    if b = Byte.doubleQuote then
      if c = Byte.doubleQuote then
        match quotedBytes rest with
        | none => none
        | some (inner, behind) => some (Byte.doubleQuote :: inner, behind)
      else some ([], c :: rest)
    else
      match quotedBytes (c :: rest) with
      | none => none
      | some (inner, behind) => some (b :: inner, behind)

/-- The bytes of a field, and those behind it; `none` if it opens a quote and does
not close it. -/
def fieldBytes : Bytes → Option (Bytes × Bytes)
  | [] => some ([], [])
  | b :: rest =>
    if b = Byte.doubleQuote then
      match quotedBytes rest with
      | none => none
      | some (inner, behind) =>
        some (inner ++ (plainBytes behind).1, (plainBytes behind).2)
    else some (plainBytes (b :: rest))

/-! ## Quoted bytes -/

variable {front rest : Bytes}

theorem quotedBytes_quote_quote_cons (rest : Bytes) :
    quotedBytes (Byte.doubleQuote :: Byte.doubleQuote :: rest) =
      (quotedBytes rest).map fun (inner, behind) => (Byte.doubleQuote :: inner, behind) := by
  rw [quotedBytes]
  cases quotedBytes rest <;> rfl

theorem quotedBytes_cons_of_ne {b : UInt8} (other : b ≠ Byte.doubleQuote) (rest : Bytes) :
    quotedBytes (b :: rest) =
      (quotedBytes rest).map fun (inner, behind) => (b :: inner, behind) := by
  cases rest with
  | nil => simp [quotedBytes, other]
  | cons c rest =>
    rw [quotedBytes, if_neg other]
    cases quotedBytes (c :: rest) <;> rfl

/-- A stretch without quotes. -/
theorem quotedBytes_append_of_not_mem (clean : Byte.doubleQuote ∉ front) (rest : Bytes) :
    quotedBytes (front ++ rest) =
      (quotedBytes rest).map fun (inner, behind) => (front ++ inner, behind) := by
  induction front with
  | nil => simp
  | cons b front ih =>
    rw [List.mem_cons, not_or] at clean
    rw [List.cons_append, quotedBytes_cons_of_ne (Ne.symm clean.1), ih clean.2, Option.map_map]
    rfl

/-- The closing quote. -/
theorem quotedBytes_quote_cons (single : Byte.doubleQuote ∉ rest.head?) :
    quotedBytes (Byte.doubleQuote :: rest) = some ([], rest) := by
  cases rest with
  | nil => rfl
  | cons b rest =>
    have other : b ≠ Byte.doubleQuote := fun same => single (same ▸ rfl)
    simp [quotedBytes, other]

theorem quotedBytes_of_not_mem (clean : Byte.doubleQuote ∉ front) : quotedBytes front = none := by
  have closed := quotedBytes_append_of_not_mem clean []
  rwa [List.append_nil] at closed

/-! ## In stretches -/

section Cursor

variable {c after : Cursor} {value : Bytes}

/-- A stretch up to the end of a field, which may be empty. -/
theorem plainAt_eq (c : Cursor) : ((plainAt c).1, (plainAt c).2.rest) = plainBytes c.rest := by
  have taken := Cursor.accept_run c.beginToken fun b => !isFieldEnd b
  rw [plainAt, Scan.upTo, taken]
  exact Prod.ext (Cursor.token_advance_takeWhile rfl) Cursor.rest_advance_takeWhile

/-- Where a jump has led onto a quote, the token is the stretch up to it, and the cursor behind
the quote is well formed. -/
theorem atQuote_of_jumpTo {atQuote : Cursor} {target : Nat} (wf : c.WellFormed)
    (begun : c.start = c.pos) (found : c.jumpTo Byte.doubleQuote = (.moved target, atQuote)) :
    Byte.doubleQuote ∉ atQuote.token ∧ (atQuote.beginToken.advance 1).WellFormed ∧
      c.rest =
        atQuote.token ++ Byte.doubleQuote :: (atQuote.beginToken.advance 1).rest := by
  obtain ⟨front, back, split, clean, same⟩ | ⟨_, still⟩ := Cursor.jumpTo_cases wf Byte.doubleQuote
  · obtain ⟨-, rfl⟩ := Prod.mk.inj (found.symm.trans same)
    have inside : front.length ≤ c.rest.length := by simp [split]
    have token : (c.advance front.length).token = front := by
      rw [Cursor.token_advance begun inside, split, List.take_left]
    have left : (c.advance front.length).beginToken.rest = Byte.doubleQuote :: back :=
      (Cursor.rest_advance c front.length).trans (by rw [split, List.drop_left])
    refine ⟨token.symm ▸ clean, (wf.advance inside).beginToken.advance (by simp [left]), ?_⟩
    rw [token, Cursor.rest_advance, left]
    exact split
  · exact absurd found (still _ _)

/-- What stands between quotes, behind the bytes of it that have been read. -/
theorem quotedFrom_eq (wf : c.WellFormed) (begun : c.start = c.pos) (value : Bytes) :
    ((quotedFrom c value).map fun (inner, after) => (inner, after.rest)) =
      (quotedBytes c.rest).map fun (inner, behind) => (value ++ inner, behind) := by
  -- Each round takes a stretch and the quotes behind it off.
  fun_induction quotedFrom c value with
  | case1 c value target atQuote found after doubled ih =>
    obtain ⟨clean, wf', split⟩ := atQuote_of_jumpTo wf begun found
    obtain ⟨second, rfl⟩ := Cursor.of_read?_byte doubled
    rw [ih (wf'.advance (by simp [second])).beginToken rfl, split, second,
      quotedBytes_append_of_not_mem clean, quotedBytes_quote_quote_cons, Option.map_map,
      Option.map_map]
    refine congrFun (congrArg Option.map (funext fun read => ?_)) _
    simp
  | case2 c value target atQuote found closed =>
    obtain ⟨clean, _, split⟩ := atQuote_of_jumpTo wf begun found
    have single := Cursor.not_mem_head?_of_read?_byte closed
    rw [split, quotedBytes_append_of_not_mem clean, quotedBytes_quote_cons single]
    simp
  | case3 c value unmoved =>
    obtain ⟨_, _, _, _, moved⟩ | ⟨absent, _⟩ := Cursor.jumpTo_cases wf Byte.doubleQuote
    · exact absurd moved (unmoved _ _)
    · rw [quotedBytes_of_not_mem absent]
      rfl

theorem fieldBytes_of_head? (plain : Byte.doubleQuote ∉ rest.head?) :
    fieldBytes rest = some (plainBytes rest) := by
  cases rest with
  | nil => rfl
  | cons b rest =>
    have other : b ≠ Byte.doubleQuote := fun same => plain (same ▸ rfl)
    exact if_neg other

/-- A field is read the same, wherever the cursor stands. -/
theorem fieldAt_eq (wf : c.WellFormed) :
    ((fieldAt c).map fun (field, after) => (field, after.rest)) = fieldBytes c.rest := by
  have begin : c.beginToken.rest = c.rest := rfl
  unfold fieldAt
  cases opened : c.beginToken.read? (Scan.byte (· == Byte.doubleQuote)) with
  | none =>
    have plain := Cursor.not_mem_head?_of_read?_byte opened
    rw [← begin, fieldBytes_of_head? plain]
    exact congrArg some (plainAt_eq c)
  | some inside =>
    obtain ⟨quote, same⟩ := Cursor.of_read?_byte opened
    have begun : c.rest = Byte.doubleQuote :: inside.beginToken.rest := quote
    have wf' : inside.beginToken.WellFormed := by
      rw [same]
      exact (wf.beginToken.advance (by simp [quote])).beginToken
    have read := quotedFrom_eq wf' rfl []
    rw [begun, fieldBytes, if_pos rfl]
    cases stopped : quotedFrom inside.beginToken [] with
    | none =>
      rw [stopped] at read
      have unclosed : quotedBytes inside.beginToken.rest = none :=
        Option.map_eq_none_iff.mp read.symm
      simp [stopped, unclosed]
    | some found =>
      obtain ⟨value, behind⟩ := found
      rw [stopped] at read
      obtain ⟨⟨inner, rest⟩, closed, same⟩ := Option.map_eq_some_iff.mp read.symm
      cases same
      have plain := plainAt_eq behind
      simp [stopped, closed, ← plain]

end Cursor

/-- A field in stretches is the same as byte by byte. -/
theorem readField_eq (bytes : Bytes) :
    readField bytes =
      (fieldBytes bytes).map fun (field, behind) => (Utf8.decodeLossy field, behind) := by
  have same := fieldAt_eq (Cursor.wellFormed_ofBytes bytes)
  rw [Cursor.rest_ofBytes] at same
  rw [← same, readField]
  cases fieldAt (.ofBytes bytes) <;> rfl

end Octets.Csv
