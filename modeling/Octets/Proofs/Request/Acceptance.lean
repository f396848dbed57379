import Mathlib.Data.List.Basic
import Octets.Proofs.Request.Chunking
import Octets.Proofs.Request.Syntax
import Octets.Proofs.Stream.Trace

/-!
# Request heads are read by their syntax

What a reader of heads takes is compared with the syntax of heads, one phase after
the other. Every phase is an `↔`: from it a session is complete on some bytes
exactly if they begin with what belongs there and it is complete on the rest.

## Main results

* `Head.completes_method_iff`, …, `Head.completes_fieldValue_iff` — one phase each
* `Head.completes_iff_written` — a session is complete exactly on what is written
* `Head.Reader.feed_eq_true_iff_isHead` — the streams that are accepted
-/

namespace Octets.Head

open Octets.Stream Octets.Stream.Grammar

variable {head : Head} {key : String} {n : Nat} {b : UInt8} {bytes tail token : Bytes}
  {last : Session Memory}

/-! ## Classes of bytes -/

theorem isUpper_iff : Byte.isUpper b = true ↔ 0x41 ≤ b ∧ b ≤ 0x5A := by simp [Byte.isUpper]

theorem isAlpha_iff :
    Byte.isAlpha b = true ↔ (0x41 ≤ b ∧ b ≤ 0x5A) ∨ (0x61 ≤ b ∧ b ≤ 0x7A) := by
  simp [Byte.isAlpha, Byte.isLower, Byte.isUpper, or_comm]

theorem isVisible_iff : isVisible b = true ↔ 0x20 < b := by simp [isVisible]

theorem isText_iff : isText b = true ↔ 0x20 ≤ b := by simp [isText]

theorem isKey_iff : isKey b = true ↔ 0x20 < b ∧ b ≠ 0x3A := by simp [isKey, isVisible]

/-! ## Line ends and spaces -/

/-- A session between two tokens. -/
abbrev between (memory : Memory) (consumed : Nat) : Session Memory :=
  ⟨memory, none, none, consumed⟩

/-- A session inside a token. -/
abbrev within (memory : Memory) (token : Bytes) (consumed : Nat) : Session Memory :=
  ⟨memory, some token, none, consumed⟩

/-- Where no spaces are skipped every byte is visited. -/
theorem move_of_no_blanks (phase : Phase) :
    grammar.move ⟨phase, false, head, key⟩ b = visit ⟨phase, false, head, key⟩ b := rfl

/-- Behind spaces a phase that takes none goes on at the first other byte. -/
theorem completes_spaces_iff (phase : Phase) (pending : phase ≠ .done)
    (refuses : ∃ fault, visit ⟨phase, false, head, key⟩ Byte.space = .refuse fault) :
    grammar.Completes (between ⟨phase, true, head, key⟩ n) bytes last ↔
      ∃ i rest, bytes = spaces i ++ rest ∧
        grammar.Completes (between ⟨phase, false, head, key⟩ n) rest last := by
  have pending' : (phase == Phase.done) = false := by simpa using pending
  have pass (_ : Bytes) (b : UInt8) (blank : (b == Byte.space) = true) :
      grammar.read (between ⟨phase, true, head, key⟩ n) b =
        .ok (between ⟨phase, true, head, key⟩ n) :=
    read_outside (by simp only [grammar, blank, Bool.and_self, if_true])
  -- A byte that is no space is read as if spaces had never been skipped.
  have passed (b : UInt8) (rest : Bytes) (other : (b == Byte.space) = false) :
      grammar.Completes (between ⟨phase, true, head, key⟩ n) (b :: rest) last ↔
        grammar.Completes (between ⟨phase, false, head, key⟩ n) (b :: rest) last := by
    have same : grammar.move ⟨phase, true, head, key⟩ b =
        grammar.move ⟨phase, false, head, key⟩ b := by
      simp only [grammar, other, Bool.and_false, Bool.false_eq_true, if_false]
    rw [completes_cons_iff, completes_cons_iff, read_congr same]
    rfl
  rw [completes_scan_iff (fun _ => between ⟨phase, true, head, key⟩ n) (fun _ => pending') pass []]
  constructor
  · rintro ⟨run, b, rest, rfl, all, other, complete⟩
    refine ⟨run.length, b :: rest, ?_, (passed b rest other).mp complete⟩
    have blanks : run = spaces run.length :=
      List.eq_replicate_iff.mpr ⟨rfl, fun c member => by simpa using all c member⟩
    rw [← blanks]
  · rintro ⟨i, rest, rfl, complete⟩
    obtain ⟨b, rest, rfl⟩ := List.exists_cons_of_ne_nil (complete.ne_nil pending')
    have other : (b == Byte.space) = false := by
      by_contra space
      obtain rfl : b = Byte.space := by simpa using space
      exact not_completes_of_refuse refuses complete
    refine ⟨spaces i, b, rest, rfl, ?_, other, (passed b rest other).mpr complete⟩
    simp [spaces]

theorem completes_lineFeed_iff :
    grammar.Completes (between ⟨.lineFeed, false, head, key⟩ n) bytes last ↔
      ∃ rest, bytes = Byte.lf :: rest ∧
        grammar.Completes (between ⟨.key, false, head, key⟩ n) rest last :=
  completes_byte_iff rfl rfl fun _ other => ⟨.lineFeed, if_neg other⟩

/-- Before the end of a line only that fits. -/
theorem completes_lineEnd_iff :
    grammar.Completes (between ⟨.lineEnd, false, head, key⟩ n) bytes last ↔
      ∃ lineEnd rest, IsLineEnd lineEnd ∧ bytes = lineEnd ++ rest ∧
        grammar.Completes (between ⟨.key, false, head, key⟩ n) rest last := by
  constructor
  · intro complete
    obtain ⟨b, tail, rfl⟩ := List.exists_cons_of_ne_nil (complete.ne_nil rfl)
    by_cases cr : b = Byte.cr
    · subst cr
      obtain ⟨rest, rfl, onward⟩ :=
        completes_lineFeed_iff.mp ((completes_outside_iff rfl rfl).mp complete)
      exact ⟨[Byte.cr, Byte.lf], rest, .inr rfl, rfl, onward⟩
    by_cases lf : b = Byte.lf
    · subst lf
      exact ⟨[Byte.lf], tail, .inl rfl, rfl, (completes_outside_iff rfl rfl).mp complete⟩
    · exact absurd complete (not_completes_of_refuse ⟨_, (if_neg cr).trans (if_neg lf)⟩)
  · rintro ⟨lineEnd, rest, rfl | rfl, rfl, complete⟩
    · exact (completes_outside_iff rfl rfl).mpr complete
    · exact (completes_outside_iff rfl rfl).mpr (completes_lineFeed_iff.mpr ⟨rest, rfl, complete⟩)

theorem completes_colon_iff :
    grammar.Completes (between ⟨.colon, false, head, key⟩ n) bytes last ↔
      ∃ rest, bytes = Byte.colon :: rest ∧
        grammar.Completes (between ⟨.value, true, head, key⟩ n) rest last :=
  completes_byte_iff rfl rfl fun _ other => ⟨.colon, if_neg other⟩

/-! ## The ends of tokens -/

/-- The byte that ends a version is read as one behind it. -/
theorem completes_versionRest_iff (stop : isVisible b = false) :
    grammar.Completes (within ⟨.versionRest, false, head, key⟩ token n) (b :: tail) last ↔
      grammar.Completes
        (between ⟨.lineEnd, true, { head with version := Utf8.decodeLossy token }, key⟩ n)
        (b :: tail) last := by
  by_cases space : b = Byte.space
  · subst space
    exact completes_end_congr rfl rfl rfl rfl rfl
  by_cases cr : b = Byte.cr
  · subst cr
    exact completes_end_congr rfl rfl rfl rfl rfl
  by_cases lf : b = Byte.lf
  · subst lf
    exact completes_end_congr rfl rfl rfl rfl rfl
  -- No other byte is fit to end a version, nor to go on behind one.
  · refine iff_of_false (not_completes_of_refuse ⟨.version, ?_⟩)
      (not_completes_of_refuse ⟨.carriageReturn, ?_⟩)
    · simp [move_of_no_blanks, visit, stop, space, cr, lf]
    · simp [grammar, visit, space, cr, lf]

/-- The byte that ends a field name is read as one behind it. -/
theorem completes_keyRest_iff (stop : isKey b = false) :
    grammar.Completes (within ⟨.keyRest, false, head, key⟩ token n) (b :: tail) last ↔
      grammar.Completes (between ⟨.colon, true, head, Utf8.decodeLossy token⟩ n)
        (b :: tail) last := by
  by_cases space : b = Byte.space
  · subst space
    exact completes_end_congr rfl rfl rfl rfl rfl
  by_cases colon : b = Byte.colon
  · subst colon
    exact completes_end_congr rfl rfl rfl rfl rfl
  · refine iff_of_false (not_completes_of_refuse ⟨.key, ?_⟩)
      (not_completes_of_refuse ⟨.colon, ?_⟩)
    · simp [move_of_no_blanks, visit, stop, space, colon]
    · simp [grammar, visit, space, colon]

/-- The byte that ends a field value is read as one at the end of its line. -/
theorem completes_valueRest_iff (stop : isText b = false) :
    grammar.Completes (within ⟨.valueRest, false, head, key⟩ token n) (b :: tail) last ↔
      grammar.Completes
        (between ⟨.lineEnd, false,
          { head with fields := head.fields.insert key (Utf8.decodeLossy token) }, ""⟩ n)
        (b :: tail) last := by
  by_cases cr : b = Byte.cr
  · subst cr
    exact completes_end_congr rfl rfl rfl rfl rfl
  by_cases lf : b = Byte.lf
  · subst lf
    exact completes_end_congr rfl rfl rfl rfl rfl
  · refine iff_of_false (not_completes_of_refuse ⟨.value, ?_⟩)
      (not_completes_of_refuse ⟨.carriageReturn, ?_⟩)
    · simp [move_of_no_blanks, visit, stop, cr, lf]
    · simp [move_of_no_blanks, visit, cr, lf]

/-! ## Words -/

theorem isMethod_iff : IsMethod token ↔
    Bytes.IsWord (Byte.isUpper · = true) (Byte.isUpper · = true) token := by
  simp only [IsMethod, isUpper_iff]

theorem isUri_iff : IsUri token ↔
    Bytes.IsWord (isVisible · = true) (isVisible · = true) token := by
  simp only [IsUri, isVisible_iff]

theorem isVersion_iff : IsVersion token ↔
    Bytes.IsWord ((· == Byte.capitalH) · = true) (isVisible · = true) token := by
  simp only [IsVersion, isVisible_iff, beq_iff_eq]

theorem isFieldName_iff : IsFieldName token ↔
    Bytes.IsWord (Byte.isAlpha · = true) (isKey · = true) token := by
  simp only [IsFieldName, isAlpha_iff, isKey_iff]

theorem isFieldValue_iff : IsFieldValue token ↔
    Bytes.IsWord (isVisible · = true) (isText · = true) token := by
  simp only [IsFieldValue, isVisible_iff, isText_iff]

/-- A phase in which only a word fits leads to the phase inside it. -/
theorem completes_opening_iff (phase phase' : Phase) (first rest : UInt8 → Bool)
    (pending : grammar.isDone ⟨phase, false, head, key⟩ = false)
    (pending' : grammar.isDone ⟨phase', false, head, key⟩ = false)
    (opens : ∀ b, first b = true →
      visit ⟨phase, false, head, key⟩ b = .first ⟨phase', false, head, key⟩)
    (refuses : ∀ b, first b = false → ∃ fault, visit ⟨phase, false, head, key⟩ b = .refuse fault)
    (stays : ∀ c, rest c = true →
      visit ⟨phase', false, head, key⟩ c = .inside ⟨phase', false, head, key⟩) :
    grammar.Completes (between ⟨phase, false, head, key⟩ n) bytes last ↔
      ∃ word c tail, Bytes.IsWord (first · = true) (rest · = true) word ∧
        bytes = word ++ c :: tail ∧ rest c = false ∧
        grammar.Completes (within ⟨phase', false, head, key⟩ word n) (c :: tail) last :=
  completes_word_iff first rest pending pending' opens refuses stays

/-- A word that nothing but a space ends is followed by at least one space. -/
theorem completes_spacedWord_iff (phase phase' next : Phase) (first rest : UInt8 → Bool)
    (store : Bytes → Head) (fault : Fault)
    (pending : grammar.isDone ⟨phase, false, head, key⟩ = false)
    (pending' : grammar.isDone ⟨phase', false, head, key⟩ = false) (onward : next ≠ .done)
    (opens : ∀ b, first b = true →
      visit ⟨phase, false, head, key⟩ b = .first ⟨phase', false, head, key⟩)
    (refuses : ∀ b, first b = false → ∃ fault, visit ⟨phase, false, head, key⟩ b = .refuse fault)
    (stays : ∀ c, rest c = true →
      visit ⟨phase', false, head, key⟩ c = .inside ⟨phase', false, head, key⟩)
    (ends : ∀ c, rest c = false → visit ⟨phase', false, head, key⟩ c =
      if c = Byte.space then .behind fun token => .ok ⟨next, true, store token, key⟩
      else .refuse fault)
    (stop : rest Byte.space = false)
    (refuses' : ∀ token, ∃ fault,
      visit ⟨next, false, store token, key⟩ Byte.space = .refuse fault) :
    grammar.Completes (between ⟨phase, false, head, key⟩ n) bytes last ↔
      ∃ word i tail, Bytes.IsWord (first · = true) (rest · = true) word ∧
        bytes = word ++ (spaces (i + 1) ++ tail) ∧
        grammar.Completes (between ⟨next, false, store word, key⟩ n) tail last := by
  have closes : visit ⟨phase', false, head, key⟩ Byte.space =
      .behind fun token => .ok ⟨next, true, store token, key⟩ := (ends _ stop).trans (if_pos rfl)
  rw [completes_opening_iff phase phase' first rest pending pending' opens refuses stays]
  constructor
  · rintro ⟨word, c, tail, isWord, rfl, stop', complete⟩
    by_cases space : c = Byte.space
    · subst space
      have behind := (completes_behind_iff pending' closes rfl).mp complete
      obtain ⟨i, tail, rfl, complete'⟩ :=
        (completes_spaces_iff next onward (refuses' word)).mp behind
      exact ⟨word, i, tail, isWord, rfl, complete'⟩
    · exact absurd complete
        (not_completes_of_refuse ⟨fault, (ends c stop').trans (if_neg space)⟩)
  · rintro ⟨word, i, tail, isWord, rfl, complete⟩
    -- The first of the spaces ends the word, the others are passed over.
    have behind := (completes_spaces_iff next onward (refuses' word)).mpr ⟨i, tail, rfl, complete⟩
    exact ⟨word, Byte.space, spaces i ++ tail, isWord, rfl, stop,
      (completes_behind_iff pending' closes rfl).mpr behind⟩

/-- A method is followed by at least one space. -/
theorem completes_method_iff :
    grammar.Completes (between ⟨.method, false, head, key⟩ n) bytes last ↔
      ∃ method i rest, IsMethod method ∧ bytes = method ++ (spaces (i + 1) ++ rest) ∧
        grammar.Completes
          (between ⟨.uri, false, { head with method := Utf8.decodeLossy method }, key⟩ n)
          rest last := by
  simp only [isMethod_iff]
  exact completes_spacedWord_iff .method .methodRest .uri Byte.isUpper Byte.isUpper
    (fun token => { head with method := Utf8.decodeLossy token }) .method rfl rfl (by decide)
    (fun _ fits => if_pos fits) (fun _ other => ⟨.method, if_neg (by simp [other])⟩)
    (fun _ fits => if_pos fits) (fun _ other => if_neg (by simp [other])) rfl
    (fun _ => ⟨.uri, rfl⟩)

/-- A target is followed by at least one space. -/
theorem completes_uri_iff :
    grammar.Completes (between ⟨.uri, false, head, key⟩ n) bytes last ↔
      ∃ uri i rest, IsUri uri ∧ bytes = uri ++ (spaces (i + 1) ++ rest) ∧
        grammar.Completes
          (between ⟨.version, false, { head with uri := Utf8.decodeLossy uri }, key⟩ n)
          rest last := by
  simp only [isUri_iff]
  exact completes_spacedWord_iff .uri .uriRest .version isVisible isVisible
    (fun token => { head with uri := Utf8.decodeLossy token }) .uri rfl rfl (by decide)
    (fun _ fits => if_pos fits) (fun _ other => ⟨.uri, if_neg (by simp [other])⟩)
    (fun _ fits => if_pos fits) (fun _ other => if_neg (by simp [other])) rfl
    (fun _ => ⟨.version, rfl⟩)

/-- What stands behind spaces, if there are any, and else in front. -/
theorem exists_spaces_append_eq_cons (i : Nat) (b : UInt8) (tail : Bytes) :
    ∃ c rest, spaces i ++ b :: tail = c :: rest ∧ (c = Byte.space ∨ c = b) := by
  cases i with
  | zero => exact ⟨b, tail, rfl, .inr rfl⟩
  | succ i => exact ⟨Byte.space, spaces i ++ b :: tail, rfl, .inl rfl⟩

theorem IsLineEnd.exists_eq_cons {lineEnd : Bytes} (ends : IsLineEnd lineEnd) (rest : Bytes) :
    ∃ c tail, lineEnd ++ rest = c :: tail ∧ (c = Byte.cr ∨ c = Byte.lf) := by
  obtain rfl | rfl := ends
  · exact ⟨Byte.lf, rest, rfl, .inr rfl⟩
  · exact ⟨Byte.cr, Byte.lf :: rest, rfl, .inl rfl⟩

/-- A version is followed by spaces and the end of its line. -/
theorem completes_version_iff :
    grammar.Completes (between ⟨.version, false, head, key⟩ n) bytes last ↔
      ∃ version i lineEnd rest, IsVersion version ∧ IsLineEnd lineEnd ∧
        bytes = version ++ (spaces i ++ (lineEnd ++ rest)) ∧
        grammar.Completes
          (between ⟨.key, false, { head with version := Utf8.decodeLossy version }, key⟩ n)
          rest last := by
  rw [completes_opening_iff .version .versionRest (· == Byte.capitalH) isVisible rfl rfl
    (fun _ fits => if_pos (by simpa using fits))
    (fun _ stop => ⟨.version, if_neg (by simpa using stop)⟩) (fun _ fits => if_pos fits)]
  constructor
  · rintro ⟨version, c, tail, word, rfl, stop, complete⟩
    obtain ⟨i, line, cut, behind⟩ :=
      (completes_spaces_iff .lineEnd (by decide) ⟨.carriageReturn, rfl⟩).mp
        ((completes_versionRest_iff stop).mp complete)
    obtain ⟨lineEnd, rest, ends, rfl, onward⟩ := completes_lineEnd_iff.mp behind
    exact ⟨version, i, lineEnd, rest, isVersion_iff.mpr word, ends, by rw [cut], onward⟩
  · rintro ⟨version, i, lineEnd, rest, word, ends, rfl, complete⟩
    have behind := (completes_spaces_iff .lineEnd (by decide) ⟨.carriageReturn, rfl⟩).mpr
      ⟨i, lineEnd ++ rest, rfl, completes_lineEnd_iff.mpr ⟨lineEnd, rest, ends, rfl, complete⟩⟩
    -- What stands behind the version begins with a byte that is none of it.
    obtain ⟨d, tail, line, ending⟩ := ends.exists_eq_cons rest
    obtain ⟨c, tail', line', stops⟩ := exists_spaces_append_eq_cons i d tail
    rw [line, line'] at behind ⊢
    have stop : isVisible c = false := by
      rcases stops with rfl | rfl
      · rfl
      · rcases ending with rfl | rfl <;> rfl
    exact ⟨version, c, tail', isVersion_iff.mp word, rfl, stop,
      (completes_versionRest_iff stop).mpr behind⟩

/-- A field name is followed by a colon with spaces on both sides. -/
theorem completes_fieldName_iff (letter : Byte.isAlpha b = true) :
    grammar.Completes (between ⟨.key, false, head, key⟩ n) (b :: bytes) last ↔
      ∃ name i j rest, IsFieldName name ∧
        b :: bytes = name ++ (spaces i ++ Byte.colon :: (spaces j ++ rest)) ∧
        grammar.Completes (between ⟨.value, false, head, Utf8.decodeLossy name⟩ n) rest last := by
  have opens (b : UInt8) (fits : Byte.isAlpha b = true) :
      grammar.move ⟨.key, false, head, key⟩ b = .first ⟨.keyRest, false, head, key⟩ := if_pos fits
  have stays (c : UInt8) (fits : isKey c = true) :
      grammar.move ⟨.keyRest, false, head, key⟩ c = .inside ⟨.keyRest, false, head, key⟩ :=
    if_pos fits
  rw [completes_word_iff_of_first Byte.isAlpha isKey rfl rfl opens stays letter]
  constructor
  · rintro ⟨name, c, tail, word, cut, stop, complete⟩
    obtain ⟨i, line, cut', behind⟩ :=
      (completes_spaces_iff .colon (by decide) ⟨.colon, rfl⟩).mp
        ((completes_keyRest_iff stop).mp complete)
    obtain ⟨line, rfl, after⟩ := completes_colon_iff.mp behind
    obtain ⟨j, rest, rfl, onward⟩ :=
      (completes_spaces_iff .value (by decide) ⟨.value, rfl⟩).mp after
    exact ⟨name, i, j, rest, isFieldName_iff.mpr word, by rw [cut, cut'], onward⟩
  · rintro ⟨name, i, j, rest, word, cut, complete⟩
    have behind := (completes_spaces_iff .colon (by decide) ⟨.colon, rfl⟩).mpr
      ⟨i, _, rfl, completes_colon_iff.mpr ⟨_, rfl,
        (completes_spaces_iff .value (by decide) ⟨.value, rfl⟩).mpr ⟨j, rest, rfl, complete⟩⟩⟩
    obtain ⟨c, tail, line, stops⟩ := exists_spaces_append_eq_cons i Byte.colon (spaces j ++ rest)
    rw [line] at behind cut
    have stop : isKey c = false := by rcases stops with rfl | rfl <;> rfl
    exact ⟨name, c, tail, isFieldName_iff.mp word, cut, stop,
      (completes_keyRest_iff stop).mpr behind⟩

/-- A field value is followed by the end of its line. -/
theorem completes_fieldValue_iff :
    grammar.Completes (between ⟨.value, false, head, key⟩ n) bytes last ↔
      ∃ value lineEnd rest, IsFieldValue value ∧ IsLineEnd lineEnd ∧
        bytes = value ++ (lineEnd ++ rest) ∧
        grammar.Completes
          (between ⟨.key, false,
            { head with fields := head.fields.insert key (Utf8.decodeLossy value) }, ""⟩ n)
          rest last := by
  rw [completes_opening_iff .value .valueRest isVisible isText rfl rfl (fun _ fits => if_pos fits)
    (fun _ stop => ⟨.value, if_neg (by simp [stop])⟩) (fun _ fits => if_pos fits)]
  constructor
  · rintro ⟨value, c, tail, word, rfl, stop, complete⟩
    obtain ⟨lineEnd, rest, ends, cut, complete⟩ :=
      completes_lineEnd_iff.mp ((completes_valueRest_iff stop).mp complete)
    exact ⟨value, lineEnd, rest, isFieldValue_iff.mpr word, ends, by rw [cut], complete⟩
  · rintro ⟨value, lineEnd, rest, word, ends, rfl, complete⟩
    have behind := completes_lineEnd_iff.mpr ⟨lineEnd, rest, ends, rfl, complete⟩
    obtain ⟨c, tail, line, stops⟩ := ends.exists_eq_cons rest
    rw [line] at behind ⊢
    have stop : isText c = false := by rcases stops with rfl | rfl <;> rfl
    exact ⟨value, c, tail, isFieldValue_iff.mp word, rfl, stop,
      (completes_valueRest_iff stop).mpr behind⟩

/-! ## Lines -/

/-- A line that does not begin with a letter is empty and ends the head. -/
theorem completes_emptyLine_iff (other : Byte.isAlpha b = false) :
    grammar.Completes (between ⟨.key, false, head, key⟩ n) (b :: tail) last ↔
      IsLineEnd (b :: tail) ∧ last = between ⟨.done, false, head, key⟩ n := by
  have done (rest : Bytes) : grammar.Completes (between ⟨.done, false, head, key⟩ n) rest last ↔
      rest = [] ∧ last = between ⟨.done, false, head, key⟩ n := completes_of_done_iff rfl
  have feed (rest : Bytes) :
      grammar.Completes (between ⟨.lastLineFeed, false, head, key⟩ n) rest last ↔
        ∃ rest', rest = Byte.lf :: rest' ∧
          grammar.Completes (between ⟨.done, false, head, key⟩ n) rest' last :=
    completes_byte_iff rfl rfl fun _ other => ⟨.lineFeed, if_neg other⟩
  constructor
  · intro complete
    by_cases lf : b = Byte.lf
    · subst lf
      obtain ⟨rfl, ended⟩ := (done _).mp ((completes_outside_iff rfl rfl).mp complete)
      exact ⟨.inl rfl, ended⟩
    by_cases cr : b = Byte.cr
    · subst cr
      obtain ⟨_, rfl, behind⟩ := (feed _).mp ((completes_outside_iff rfl rfl).mp complete)
      obtain ⟨rfl, ended⟩ := (done _).mp behind
      exact ⟨.inr rfl, ended⟩
    · exact absurd complete (not_completes_of_refuse
        ⟨.key, (if_neg (by simp [other])).trans ((if_neg lf).trans (if_neg cr))⟩)
  · rintro ⟨ends | ends, rfl⟩
    · obtain ⟨rfl, rfl⟩ := List.cons.inj ends
      exact (completes_outside_iff rfl rfl).mpr ((done _).mpr ⟨rfl, rfl⟩)
    · obtain ⟨rfl, rfl⟩ := List.cons.inj ends
      exact (completes_outside_iff rfl rfl).mpr ((feed _).mpr ⟨_, rfl, (done _).mpr ⟨rfl, rfl⟩⟩)

/-- The head with more fields. -/
def withEntries (head : Head) (entries : List (String × String)) : Head :=
  { head with fields := head.fields.insertMany entries }

theorem withEntries_cons (head : Head) (name value : String) (entries : List (String × String)) :
    withEntries { head with fields := head.fields.insert name value } entries =
      withEntries head ((name, value) :: entries) := by
  simp only [withEntries, Std.TreeMap.insertMany_cons]

theorem completes_of_writtenFields {fields : List (Bytes × Bytes)}
    (written : WrittenFields fields bytes) :
    grammar.Completes (between ⟨.key, false, head, ""⟩ n) bytes
      (between ⟨.done, false, withEntries head (decodeFields fields), ""⟩ n) := by
  -- The induction is on how the fields are written; the head so far is left open.
  induction written generalizing head with
  | nil ends =>
    obtain ⟨c, tail, line, stops⟩ := ends.exists_eq_cons []
    rw [List.append_nil] at line
    subst line
    have other : Byte.isAlpha c = false := by rcases stops with rfl | rfl <;> rfl
    exact (completes_emptyLine_iff other).mpr ⟨ends, rfl⟩
  | @cons name value lineEnd rest fields before behind isName isValue ends _ ih =>
    obtain ⟨b, run, rfl, letter, _⟩ := isFieldName_iff.mp isName
    have rest := @ih { head with
      fields := head.fields.insert (Utf8.decodeLossy (b :: run)) (Utf8.decodeLossy value) }
    rw [withEntries_cons] at rest
    have stored := completes_fieldValue_iff.mpr ⟨value, lineEnd, _, isValue, ends, rfl, rest⟩
    simp only [List.append_assoc, List.cons_append]
    exact (completes_fieldName_iff letter).mpr
      ⟨b :: run, before, behind, _, isName, rfl, stored⟩

theorem writtenFields_of_completes
    (complete : grammar.Completes (between ⟨.key, false, head, ""⟩ n) bytes last) :
    ∃ fields, WrittenFields fields bytes ∧
      last = between ⟨.done, false, withEntries head (decodeFields fields), ""⟩ n := by
  -- The induction is on the length, since a line is taken off the front whole.
  induction length : bytes.length using Nat.strongRecOn generalizing bytes head with
  | ind length ih =>
    obtain ⟨b, tail, rfl⟩ := List.exists_cons_of_ne_nil (complete.ne_nil rfl)
    cases letter : Byte.isAlpha b with
    | false =>
      obtain ⟨ends, rfl⟩ := (completes_emptyLine_iff letter).mp complete
      exact ⟨[], .nil ends, rfl⟩
    | true =>
      obtain ⟨name, before, behind, line, isName, cut, named⟩ :=
        (completes_fieldName_iff letter).mp complete
      obtain ⟨value, lineEnd, rest, isValue, ends, rfl, onward⟩ :=
        completes_fieldValue_iff.mp named
      have shorter : rest.length < (b :: tail).length := by
        rw [cut]
        simp only [List.length_append, List.length_cons]
        omega
      obtain ⟨fields, written, rfl⟩ := ih rest.length (length ▸ shorter) onward rfl
      refine ⟨(name, value) :: fields, ?_, ?_⟩
      · rw [cut]
        simpa using WrittenFields.cons before behind isName isValue ends written
      · rw [withEntries_cons]
        rfl

/-! ## Heads -/

/-- A head is read to its end exactly if it is written, and says what its tokens
say. -/
theorem completes_iff_written :
    grammar.Completes (between .start n) bytes last ↔
      ∃ tokens, Written tokens bytes ∧ last = between ⟨.done, false, tokens.head, ""⟩ n := by
  constructor
  · intro complete
    obtain ⟨method, i, _, isMethod, rfl, fromUri⟩ := completes_method_iff.mp complete
    obtain ⟨uri, j, _, isUri, rfl, fromVersion⟩ := completes_uri_iff.mp fromUri
    obtain ⟨version, k, lineEnd, rest, isVersion, ends, rfl, fromFields⟩ :=
      completes_version_iff.mp fromVersion
    obtain ⟨fields, written, rfl⟩ := writtenFields_of_completes fromFields
    refine ⟨⟨method, uri, version, fields⟩, ?_, rfl⟩
    simpa using Written.intro i j k isMethod isUri isVersion ends written
  · rintro ⟨_, ⟨i, j, k, isMethod, isUri, isVersion, ends, written⟩, rfl⟩
    simp only [List.append_assoc]
    refine completes_method_iff.mpr ⟨_, i, _, isMethod, rfl, ?_⟩
    refine completes_uri_iff.mpr ⟨_, j, _, isUri, rfl, ?_⟩
    refine completes_version_iff.mpr ⟨_, k, _, _, isVersion, ends, rfl, ?_⟩
    exact completes_of_writtenFields written

namespace Reader

/-- A reader that is fed a head takes just that, and is left done. -/
theorem feed_of_written (capacity : Nat) {tokens : Tokens} {written : Bytes}
    (writes : Written tokens written) (back : Bytes) :
    let run := (start ⟨capacity, none⟩).feed (written ++ back)
    run.2 = .ok true ∧ run.1.head = tokens.head ∧ run.1.bodyOffset = some written.length := by
  intro run
  have complete : grammar.Completes (between .start 0) written
      (between ⟨.done, false, tokens.head, ""⟩ 0) :=
    completes_iff_written.mpr ⟨tokens, writes, rfl⟩
  have fed := feed_of_completes rfl complete back
  have session := feed_session (start ⟨capacity, none⟩) (written ++ back)
  rw [show (start ⟨capacity, none⟩).session = between .start 0 from rfl, fed] at session
  obtain ⟨left, answer⟩ := Prod.mk.inj session
  refine ⟨answer, ?_, ?_⟩
  · rw [Reader.head, left]
    rfl
  · rw [bodyOffset, isDone, consumed, left]
    simp [grammar]

/-- A stream is accepted exactly if a head stands in front of it. There is only
one, its length is the offset of the body, its tokens are what has been read, and
of several fields with one name the last one counts. -/
theorem feed_eq_true_iff_isHead (capacity : Nat) (stream : Bytes) :
    let run := (start ⟨capacity, none⟩).feed stream
    (run.2 = .ok true ↔ ∃ written, written <+: stream ∧ IsHead written) ∧
      ∀ tokens written, Written tokens written → written <+: stream →
        (∀ other, other <+: stream → IsHead other → other = written) ∧
        run.1.bodyOffset = some written.length ∧
        run.1.head.method = Utf8.decodeLossy tokens.method ∧
        run.1.head.uri = Utf8.decodeLossy tokens.uri ∧
        run.1.head.version = Utf8.decodeLossy tokens.version ∧
        ∀ name, run.1.head.fields[name]? = lastValue? (decodeFields tokens.fields) name := by
  intro run
  refine ⟨⟨?_, ?_⟩, ?_⟩
  · intro accepted
    have session := feed_session (start ⟨capacity, none⟩) stream
    have answer : (grammar.feed (between .start 0) stream).2 = .ok true :=
      (Prod.mk.inj session).2.symm.trans accepted
    obtain ⟨written, last, front, complete⟩ := (feed_eq_true_iff rfl).mp answer
    obtain ⟨tokens, writes, _⟩ := completes_iff_written.mp complete
    exact ⟨written, front, tokens, writes⟩
  · rintro ⟨written, ⟨back, rfl⟩, tokens, writes⟩
    exact (feed_of_written capacity writes back).1
  · rintro tokens written writes ⟨back, rfl⟩
    obtain ⟨_, head, offset⟩ := feed_of_written capacity writes back
    refine ⟨?_, offset, ?_, ?_, ?_, fun name => ?_⟩
    -- Both heads have the offset of the body as their length.
    · rintro other ⟨back', cut⟩ ⟨tokens', writes'⟩
      have offset' := (feed_of_written capacity writes' back').2.2
      rw [cut, offset, Option.some.injEq] at offset'
      have front : other <+: written ++ back := ⟨back', cut⟩
      rw [List.prefix_iff_eq_take, ← offset', List.take_left'] at front
      · exact front
      · rfl
    · rw [head, Tokens.head]
    · rw [head, Tokens.head]
    · rw [head, Tokens.head]
    · rw [head, Tokens.head, getElem?_insertMany, Std.TreeMap.getElem?_emptyc, Option.or_none]

end Reader

end Octets.Head
