import Octets.Proofs.Form.Multipart
import Octets.Proofs.Limit

/-!
# Parts under a limit on tokens

A multipart body is refused under a limit if and only if one of its tokens is too long: the
boundary with its dashes, a header line, or the data of a part. The data are kept without the
delimiter behind them, but they are only known to end where the delimiter does, and their token
is measured there. So data are refused that are shorter than the limit by less than the length
of the delimiter, while no other token is measured with what ends it.

## Main definitions

* `Form.Admits` — a limit that lets all parts pass

## Main results

* `Reader.feedAll_limited_of_parts` — what becomes of a multipart body under a limit
* `Reader.feedAll_limited_shortData` — data that are refused, though they are no longer than the
  limit
-/

namespace Octets.Form

open Octets.Stream Octets.Stream.Grammar

variable {boundary : Boundary} {parts : List (RawPart boundary)} {limit : Nat}

/-- No boundary, header line or data with the delimiter is longer than the limit. -/
structure Admits (limit : Nat) (parts : List (RawPart boundary)) : Prop where
  opening : (dashes ++ boundary.bytes).length ≤ limit
  lines : ∀ raw ∈ parts, ∀ line ∈ raw.lines, line.length ≤ limit
  data : ∀ raw ∈ parts, raw.data.length + boundary.delimiter.length ≤ limit

theorem admits_iff :
    Admits limit parts ↔
      ∀ token ∈ (dashes ++ boundary.bytes) :: parts.flatMap RawPart.tokens,
        token.length ≤ limit := by
  have ofPart (raw : RawPart boundary) : (∀ token ∈ raw.tokens, token.length ≤ limit) ↔
      (∀ line ∈ raw.lines, line.length ≤ limit) ∧
        raw.data.length + boundary.delimiter.length ≤ limit := by
    rw [RawPart.tokens, List.forall_mem_append, List.forall_mem_singleton, List.length_append]
  simp only [List.forall_mem_cons, List.forall_mem_flatMap, ofPart]
  exact ⟨fun admits => ⟨admits.opening, fun raw member => ⟨admits.lines raw member,
      admits.data raw member⟩⟩,
    fun ⟨opening, each⟩ => ⟨opening, fun raw member => (each raw member).1,
      fun raw member => (each raw member).2⟩⟩

namespace Reader

section Parts

variable (capacity limit : Nat) (occupied : parts ≠ []) {chunks : List Bytes} {back : Bytes}
  (cut : chunks.flatten = multipart parts ++ back)
include occupied cut

theorem feedAll_of_parts :
    let free := (start ⟨capacity, none⟩).feedAll chunks
    free.2 = .ok true ∧ free.1.form = Form.empty.addParts parts := by
  have trace := closes_multipart capacity occupied
  have whole := feedAll_of_completes rfl ⟨trace.reads, rfl⟩ cut
  refine ⟨?_, ?_⟩
  · rw [answer_feedAll]
    exact congrArg Prod.snd whole
  · rw [Reader.form, session_feedAll]
    exact congrArg (fun run => run.1.memory.form) whole

/-- Where a limit admits the parts, they are read as without a limit. -/
theorem feedAll_limited_of_admits (admits : Admits limit parts) :
    let bounded := (start ⟨capacity, some limit⟩).feedAll chunks
    bounded.2 = .ok true ∧ bounded.1.form = Form.empty.addParts parts := by
  have trace := closes_multipart capacity occupied
  have whole := feedAll_limited_of_closes grammar_orderly (s := (start ⟨capacity, none⟩).session)
    rfl rfl (Nat.zero_le _) trace rfl cut (admits_iff.mp admits)
  refine ⟨?_, ?_⟩
  · rw [answer_feedAll]
    exact congrArg Prod.snd whole
  · rw [Reader.form, session_feedAll]
    exact congrArg (fun run => run.1.memory.form) whole

/-- Otherwise a token is refused as too long. -/
theorem feedAll_limited_of_not_admits (refuses : ¬ Admits limit parts) :
    ∃ offset, ((start ⟨capacity, some limit⟩).feedAll chunks).2 =
      .error ⟨.tokenTooLong limit, offset⟩ := by
  have trace := closes_multipart capacity occupied
  rw [answer_feedAll]
  exact feedAll_limited_of_closes_of_long grammar_orderly
    (s := (start ⟨capacity, none⟩).session) rfl rfl (Nat.zero_le _) trace rfl cut
    (refuses ∘ admits_iff.mpr)

end Parts

/-- However a multipart body is cut into chunks, and whatever follows it, it is read to its end
without a limit. Under a limit that admits its parts it comes to the same form. Under any other
limit a token of it is refused as too long. -/
theorem feedAll_limited_of_parts (capacity limit : Nat) {parts : List (RawPart boundary)}
    (occupied : parts ≠ []) {chunks : List Bytes} {back : Bytes}
    (cut : chunks.flatten = multipart parts ++ back) :
    let free := (start ⟨capacity, none⟩).feedAll chunks
    let bounded := (start ⟨capacity, some limit⟩).feedAll chunks
    free.2 = .ok true ∧
      (Admits limit parts → bounded.2 = .ok true ∧ bounded.1.form = free.1.form) ∧
      (¬ Admits limit parts → ∃ offset, bounded.2 = .error ⟨.tokenTooLong limit, offset⟩) := by
  intro free bounded
  obtain ⟨read, form⟩ := feedAll_of_parts capacity occupied cut
  refine ⟨read, fun admits => ?_, feedAll_limited_of_not_admits capacity limit occupied cut⟩
  obtain ⟨read', form'⟩ := feedAll_limited_of_admits capacity limit occupied cut admits
  exact ⟨read', form'.trans form.symm⟩

/-- A field whose data are as long as its only header line. -/
def evenField : RawPart twoLetters where
  lines := [Bytes.ofText "Content-Disposition: form-data; name=a"]
  header := ⟨some "a", none, none⟩
  data := Bytes.ofText "The limit says how long a token may be"
  lines_fit := List.forall_mem_singleton.mpr ⟨List.cons_ne_nil _ _, List.all_eq_true.mp rfl⟩
  said := by decide +kernel
  named := rfl
  data_clean := by decide

/-- With the six bytes of the delimiter the data are the longest token, of 44 bytes. -/
theorem feedAll_limited_of_parts_evenField :
    let body := multipart [evenField]
    let run (limit : Nat) := (start ⟨16, some limit⟩).feedAll [body.take 70, body.drop 70]
    (run 44).2 = .ok true ∧ ∃ offset, (run 43).2 = .error ⟨.tokenTooLong 43, offset⟩ := by
  intro body run
  have cut : [body.take 70, body.drop 70].flatten = multipart [evenField] ++ [] := by
    simp [body]
  have admits : Admits 44 [evenField] := by
    refine ⟨by decide, ?_, ?_⟩ <;> rw [List.forall_mem_singleton] <;> decide
  have refuses : ¬ Admits 43 [evenField] := fun admits =>
    absurd (admits.data evenField (List.mem_singleton_self _)) (by decide)
  have short := feedAll_limited_of_parts 16 44 (List.cons_ne_nil _ _) cut
  have long := feedAll_limited_of_parts 16 43 (List.cons_ne_nil _ _) cut
  exact ⟨(short.2.1 admits).1, long.2.2 refuses⟩

/-- Neither the boundary, nor the header line, nor the data are longer than the limit. -/
theorem feedAll_limited_shortData :
    let body := multipart [evenField]
    ((dashes ++ twoLetters.bytes).length ≤ 38 ∧
        (∀ line ∈ evenField.lines, line.length ≤ 38) ∧ evenField.data.length ≤ 38) ∧
      ((start ⟨16, none⟩).feedAll [body]).2 = .ok true ∧
      ∃ offset, ((start ⟨16, some 38⟩).feedAll [body]).2 = .error ⟨.tokenTooLong 38, offset⟩ := by
  intro body
  have cut : [body].flatten = multipart [evenField] ++ [] := by
    simp [body]
  have refuses : ¬ Admits 38 [evenField] := fun admits =>
    absurd (admits.data evenField (List.mem_singleton_self _)) (by decide)
  exact ⟨by decide, (feedAll_of_parts 16 (List.cons_ne_nil _ _) cut).1,
    feedAll_limited_of_not_admits 16 38 (List.cons_ne_nil _ _) cut refuses⟩

end Reader

end Octets.Form
