import Octets.Proofs.Glob.Compiling
import Octets.Proofs.Matcher.Composition

/-!
# Escaped patterns

A pattern with a backslash in front of every byte matches these bytes and nothing else, as long
as there is no line feed among them. Lines are cut before any backslash is seen, so a line feed
stands for itself in any case, and a backslash in front of it is the last byte of its line, where
it has nothing to escape and stands for itself, too.

## Main definitions

* `Glob.escapes`, `Glob.kept` — a backslash in front of every byte, and the bytes that such a
  pattern stands for

## Main results

* `exists_patternTokens_escapes` — the tokens of such a pattern and what they make of an assembly
* `parse_escapes` — what such a pattern matches
* `parse_escapes_lineFeed` — a line feed is not matched by itself with a backslash in front of it
-/

namespace Octets.Glob

/-- A backslash in front of every byte. -/
def escapes (w : Bytes) : Bytes := w.flatMap fun b => [Byte.backslash, b]

/-- The bytes that are matched. The backslash in front of a line feed is one of them. -/
def kept (w : Bytes) : Bytes :=
  w.flatMap fun b => if b = Byte.lf then [Byte.backslash, b] else [b]

variable {w u v : Bytes} {a : Assembly}

theorem kept_of_not_mem (clean : Byte.lf ∉ w) : kept w = w := by
  induction w with
  | nil => rfl
  | cons b w ih =>
    have here : b ≠ Byte.lf := Ne.symm (List.ne_of_not_mem_cons clean)
    rw [kept, List.flatMap_cons, if_neg here]
    exact congrArg (b :: ·) (ih (List.not_mem_of_not_mem_cons clean))

theorem isEscaped_escapes (special : UInt8 → Bool) (clean : Byte.lf ∉ w) :
    IsEscaped special w (escapes w) := by
  induction w with
  | nil => exact .nil
  | cons b w ih =>
    exact .escaped (Ne.symm (List.ne_of_not_mem_cons clean))
      (ih (List.not_mem_of_not_mem_cons clean))

/-! ## Lines -/

/-- A backslash at the end of a line stands for itself. -/
theorem compiles_lastBackslash (outside : a.group = none) :
    Compiles .body [Byte.backslash] (fun _ => a) (a.addText [Byte.backslash]) := by
  have reads : ReadsToken .body [Byte.backslash] [] .name .body :=
    readsToken_name (by decide) rfl
  exact compiles_token reads (fun _ offset => ⟨0, push_text outside (.inl rfl) _ offset⟩)
    (compiles_nil .body _)

/-- The tokens of such a pattern, line by line. -/
theorem exists_patternTokens_escapes (w : Bytes) {a : Assembly} (outside : a.group = none) :
    ∃ listed, PatternTokens (escapes w) listed ∧ Assembly.Becomes listed a (a.addText (kept w)) := by
  by_cases feed : Byte.lf ∈ w
  · obtain ⟨u, v, rfl, clean⟩ := List.eq_append_cons_of_mem feed
    -- The backslash in front of the first line feed ends the first line.
    have written := isEscaped_escapes isSpecial clean
    have outside' : (a.addText u).group = none := outside
    obtain ⟨listed, spells, becomes⟩ :=
      compiles_literal written outside (compiles_lastBackslash outside')
    have outside'' : (a.addText (u ++ [Byte.backslash, Byte.lf])).group = none := outside
    obtain ⟨others, below, becomes'⟩ := exists_patternTokens_escapes v outside''
    have line : escapes (u ++ Byte.lf :: v) =
        (escapes u ++ [Byte.backslash]) ++ Byte.lf :: escapes v := by
      simp [escapes]
    have text : kept (u ++ Byte.lf :: v) = u ++ [Byte.backslash, Byte.lf] ++ kept v := by
      have front : kept (u ++ Byte.lf :: v) = kept u ++ kept (Byte.lf :: v) :=
        List.flatMap_append
      rw [front, kept_of_not_mem clean, List.append_assoc]
      rfl
    have bare : (escapes u ++ [Byte.backslash]).getLast? ≠ some Byte.cr := by
      simp +decide
    have free : Byte.lf ∉ escapes u ++ [Byte.backslash] := by
      simp +decide [written.not_mem]
    rw [line, text, ← Assembly.addText_addText]
    refine ⟨_, .line free bare spells below, (becomes 0).append fun offset => ⟨_, ?_, becomes'⟩⟩
    simp [Assembly.push, outside, Assembly.pushPlain, Assembly.addText, unescape]
  · have written := isEscaped_escapes isSpecial feed
    obtain ⟨listed, spells, becomes⟩ :=
      compiles_literal written outside (compiles_nil .body (a.addText w))
    rw [List.append_nil] at spells
    rw [kept_of_not_mem feed]
    exact ⟨listed, .last written.not_mem spells, becomes 0⟩
termination_by w.length

/-! ## Patterns -/

theorem kept_ne_nil (some_byte : w ≠ []) : kept w ≠ [] := by
  cases w with
  | nil => exact absurd rfl some_byte
  | cons b w =>
    rw [kept, List.flatMap_cons]
    split <;> simp

theorem Assembly.finished_addText_empty {text : Bytes} (some_byte : text ≠ []) :
    (empty.addText text).finished = Matcher.empty.push (.literal text) := by
  have flushed : (empty.addText text).flushLiteral =
      ⟨Matcher.empty.push (.literal text), [], false, none⟩ :=
    if_neg (by simpa [addText, empty] using some_byte)
  rw [finished, flushed]
  rfl

/-- The matcher of such a pattern is a literal. It is the bytes themselves if there is no line feed
among them; otherwise the backslash in front of a line feed is part of it. -/
theorem parse_escapes (some_byte : w ≠ []) :
    (∃ g, parse (escapes w) = .ok g ∧ ∀ input,
      (g.matchFront input = if kept w <+: input then some (kept w).length else none) ∧
        (g.matchesWhole input = true ↔ input = kept w)) ∧
      (Byte.lf ∉ w → kept w = w) := by
  have outside : Assembly.empty.group = none := rfl
  obtain ⟨listed, spells, becomes⟩ := exists_patternTokens_escapes w outside
  have written : escapes w ≠ [] := by
    cases w with
    | nil => exact absurd rfl some_byte
    | cons b w => exact List.cons_ne_nil _ _
  have finishes : (Assembly.empty.addText (kept w)).finish =
      .ok (Matcher.empty.push (.literal (kept w))) := by
    rw [← Assembly.finished_addText_empty (kept_ne_nil some_byte)]
    exact Assembly.finish_of_outside rfl
  have matched (input : Bytes) : (Matcher.empty.push (.literal (kept w))).matchFront input =
      if kept w <+: input then some (kept w).length else none := by
    have literal : Matcher.Step.isBuiltIn (.literal (kept w)) = true := rfl
    rw [Matcher.matchFront_push_empty literal]
    show Scan.literal (kept w) input = _
    simp [Scan.literal]
  have sound := Matcher.isSoundFor_push Matcher.isSoundFor_empty
    (Matcher.Step.isSoundFor_literal (kept w))
  refine ⟨⟨_, parse_of_becomes written spells becomes finishes, fun input => ⟨matched input, ?_⟩⟩,
    kept_of_not_mem⟩
  refine (Matcher.matchFront_push_finish sound input).trans ?_
  rw [matched, Option.ite_none_right_eq_some, Option.some.injEq]
  constructor
  · rintro ⟨front, length⟩
    exact (front.eq_of_length length).symm
  · rintro rfl
    exact ⟨List.prefix_refl _, rfl⟩

/-- Two lines of special bytes. -/
theorem parse_escapes_twoLines :
    ∃ g, parse (Bytes.ofText "\\*\\\n\\?") = .ok g ∧
      g.matchFront (Bytes.ofText "*\\\n?.") = some 4 ∧
        g.matchesWhole (Bytes.ofText "*\\\n?") = true ∧
          g.matchFront (Bytes.ofText "*\n?") = none := by
  obtain ⟨⟨g, parsed, matched⟩, _⟩ := parse_escapes (w := Bytes.ofText "*\n?") (by decide)
  have pattern : escapes (Bytes.ofText "*\n?") = Bytes.ofText "\\*\\\n\\?" := by decide
  have text : kept (Bytes.ofText "*\n?") = Bytes.ofText "*\\\n?" := by decide
  rw [pattern] at parsed
  rw [text] at matched
  refine ⟨g, parsed, (matched _).1.trans (if_pos ?_), (matched _).2.mpr rfl,
    (matched _).1.trans (if_neg ?_)⟩
  · decide
  · decide

/-- A line feed with a backslash in front of it does not match the line feed. -/
theorem parse_escapes_lineFeed :
    ¬ ∃ g, parse (escapes [Byte.lf]) = .ok g ∧
      ∀ input, g.matchFront input = if [Byte.lf] <+: input then some 1 else none := by
  rintro ⟨g, parsed, matched⟩
  have ran : (parse (escapes [Byte.lf])).toOption.map (·.matchFront [Byte.lf]) = some none := by
    decide +kernel
  rw [parsed] at ran
  have found : g.matchFront [Byte.lf] = some 1 := matched [Byte.lf]
  simp [Except.toOption, found] at ran

end Octets.Glob
