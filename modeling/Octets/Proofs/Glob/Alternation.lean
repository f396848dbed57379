import Octets.Proofs.Glob.Compiling
import Octets.Proofs.LeadTable
import Octets.Proofs.Matcher.Composition

/-!
# Patterns that list names

A pattern that is one alternation matches the first name of the list that stands at the front of
the input, even if a later name is longer. With a star in front of it, the pattern leads through
the first name of the list that stands at the first place where any name does. That the names
are grouped by their first bytes does not show.

## Main results

* `holds_ofSequences` — the table of some names
* `parse_alternation` — what such patterns match
-/

namespace Octets.Glob

variable {names : List Bytes} {text : Bytes}

theorem WrittenNames.ne_nil (written : WrittenNames names text) : names ≠ [] := by
  cases written <;> exact List.cons_ne_nil _ _

theorem WrittenNames.ne_nil_of_mem (written : WrittenNames names text) :
    ∀ name ∈ names, name ≠ [] := by
  induction written with
  | one some_byte _ => simpa using some_byte
  | cons some_byte _ _ ih => simpa using ⟨some_byte, ih⟩

/-- The table of the names answers for their list. -/
theorem holds_ofSequences (nonempty : ∀ name ∈ names, name ≠ []) :
    (LeadTable.ofSequences names).Holds names := by
  have holds := LeadTable.holds_ofAdditions (names.map .sequence)
  have table : LeadTable.ofAdditions (names.map .sequence) = .ofSequences names := by
    rw [LeadTable.ofAdditions, List.foldl_map]
    rfl
  have listed : LeadTable.listed (names.map .sequence) = names := by
    have same : (names.map .sequence).map LeadTable.Addition.bytes = names := by
      rw [List.map_map]
      exact List.map_id names
    rw [LeadTable.listed, same]
    exact List.filter_eq_self.mpr fun name member => by simpa using nonempty name member
  rwa [table, listed] at holds

/-- Names are tried in the order of the list. Alone, an alternation takes the first name of the
list that the input begins with. Behind a star, it leads through the first name of the list that
stands at the first place where any name does, and fails if none stands anywhere. -/
theorem parse_alternation (written : WrittenNames names text) :
    (∃ g, parse (Byte.leftBrace :: text ++ [Byte.rightBrace]) = .ok g ∧ ∀ input,
      g.matchFront input = (names.find? (·.isPrefixOf input)).map List.length) ∧
    ∃ g, parse (Byte.asterisk :: Byte.leftBrace :: text ++ [Byte.rightBrace]) = .ok g ∧
      ∀ input,
        (∀ place name, StandsFirst names input place name →
          g.matchFront input = some (place + name.length)) ∧
        (g.matchFront input = none ↔ ∀ place, ∀ name ∈ names, ¬ name <+: input.drop place) := by
  have nonempty := written.ne_nil_of_mem
  have holds := holds_ofSequences nonempty
  -- With a name in the list, the alternation is a step.
  obtain ⟨name, others, rfl⟩ := List.exists_cons_of_ne_nil written.ne_nil
  have item := Item.IsWritten.alternation written
  constructor
  · have alone : IsWritten [.alternation (name :: others)]
        (Byte.leftBrace :: text ++ [Byte.rightBrace]) := by
      simpa using IsWritten.cons item .nil
    refine ⟨_, parse_of_isWritten alone (List.isChain_singleton _) (List.cons_ne_nil _ _),
      fun input => ?_⟩
    have entry : Matcher.Step.isBuiltIn (.entry (.ofSequences (name :: others))) = true := rfl
    exact (Matcher.matchFront_push_empty entry input).trans (holds.entry_eq nonempty input)
  · have behind : IsWritten [.anyRun, .alternation (name :: others)]
        (Byte.asterisk :: Byte.leftBrace :: text ++ [Byte.rightBrace]) := by
      simpa using IsWritten.cons .star (.cons item .nil)
    have apart : IsApart [.anyRun, .alternation (name :: others)] := by
      simp [IsApart, Item.Begins]
    refine ⟨_, parse_of_isWritten behind apart (List.cons_ne_nil _ _), fun input => ?_⟩
    have search : Matcher.Step.isBuiltIn (.throughEntry (.ofSequences (name :: others))) = true :=
      rfl
    have taken := Matcher.matchFront_push_empty search input
    refine ⟨fun place w first => ?_, ?_⟩
    · exact taken.trans (holds.search_of_standsFirst nonempty first).1
    · exact (Eq.congr_left taken).trans (holds.throughEntry_eq_none_iff nonempty input)

/-- Names with the same first byte, and a name that begins with a comma. -/
theorem parse_alternation_sharedFront :
    ∃ g h, parse (Bytes.ofText "\x7bab,a,\\,b\x7d") = .ok g ∧
      parse (Bytes.ofText "*\x7bab,a,\\,b\x7d") = .ok h ∧
        g.matchFront (Bytes.ofText "abc") = some 2 ∧ h.matchFront (Bytes.ofText "xx,ba") = some 4 := by
  have first : IsEscaped isSeparator (Bytes.ofText "ab") (Bytes.ofText "ab") :=
    .plain rfl (by decide) (by decide) (.plain rfl (by decide) (by decide) .nil)
  have second : IsEscaped isSeparator (Bytes.ofText "a") (Bytes.ofText "a") :=
    .plain rfl (by decide) (by decide) .nil
  have third : IsEscaped isSeparator (Bytes.ofText ",b") (Bytes.ofText "\\,b") :=
    .escaped (by decide) (.plain rfl (by decide) (by decide) .nil)
  have written : WrittenNames [Bytes.ofText "ab", Bytes.ofText "a", Bytes.ofText ",b"]
      (Bytes.ofText "ab,a,\\,b") :=
    .cons (by decide) first (.cons (by decide) second (.one (by decide) third))
  obtain ⟨⟨g, parsed, matched⟩, h, parsed', matched'⟩ := parse_alternation written
  have stands : StandsFirst [Bytes.ofText "ab", Bytes.ofText "a", Bytes.ofText ",b"]
      (Bytes.ofText "xx,ba") 2 (Bytes.ofText ",b") := ⟨by decide, by decide⟩
  exact ⟨g, h, parsed, parsed', (matched _).trans (by decide), (matched' _).1 _ _ stands⟩

end Octets.Glob
