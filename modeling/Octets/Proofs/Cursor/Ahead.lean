import Octets.Proofs.Lexer.Lines
import Octets.Proofs.Scan

/-!
# Cursors further on

Where a scan leads, the bytes in between are the next unread ones.

## Main definitions

* `Cursor.IsAhead` — a cursor that is some of the unread bytes further on

## Main results

* `Cursor.IsAhead.slice` — the bytes between the two
* `Cursor.isAhead_of_read?`, `Cursor.isAhead_jumpToEnd` — where cursors go
* `Cursor.of_read?_run` — a run is taken as a token
* `Cursor.jumpTo_cases` — where a jump leads
-/

namespace Octets.Cursor

variable {c d : Cursor} {scan : Scan} {n : Nat}

/-- A cursor that is some of the unread bytes further on. -/
def IsAhead (c d : Cursor) (n : Nat) : Prop := n ≤ c.rest.length ∧ d = c.advance n

theorem IsAhead.refl (c : Cursor) : c.IsAhead c 0 := ⟨Nat.zero_le _, rfl⟩

theorem IsAhead.trans {e : Cursor} {m : Nat} (first : c.IsAhead d n) (second : d.IsAhead e m) :
    c.IsAhead e (n + m) := by
  obtain ⟨inside, rfl⟩ := first
  obtain ⟨inside', rfl⟩ := second
  rw [rest_advance, List.length_drop] at inside'
  exact ⟨by omega, by simp only [advance, Nat.add_assoc]⟩

/-- What lies between the two cursors are the next bytes. -/
theorem IsAhead.slice (ahead : c.IsAhead d n) : c.bytes.slice c.pos d.pos = c.rest.take n := by
  obtain ⟨inside, rfl⟩ := ahead
  simp only [rest, Bytes.length_slice] at inside
  simp only [rest, advance, Bytes.slice_eq_take_drop, List.take_take]
  congr 1
  omega

/-- The token from where the cursor stands. -/
theorem token_advance (begun : c.start = c.pos) (inside : n ≤ c.rest.length) :
    (c.advance n).token = c.rest.take n := by
  have ahead : c.IsAhead (c.advance n) n := ⟨inside, rfl⟩
  rw [← ahead.slice, ← begun]
  rfl

/-- A given byte that is taken comes next, and the cursor goes behind it. -/
theorem of_read?_byte {b : UInt8} (found : c.read? (Scan.byte (· == b)) = some d) :
    c.rest = b :: d.rest ∧ d = c.advance 1 := by
  obtain ⟨nonempty, rfl⟩ := advance_of_read?_byte found
  obtain ⟨first, rest, unread⟩ := List.exists_cons_of_ne_nil nonempty
  rw [read?_byte unread] at found
  obtain rfl : first = b := by simpa using found
  exact ⟨by simp [rest_advance, unread], rfl⟩

theorem not_mem_head?_of_read?_byte {b : UInt8}
    (absent : c.read? (Scan.byte (· == b)) = none) : b ∉ c.rest.head? := by
  intro first
  obtain ⟨rest, unread⟩ := List.head?_eq_some_iff.mp first
  simp [read?_byte unread] at absent

section Run

variable {cls : UInt8 → Bool}

/-- Behind a run, which may be empty, the token is the run if it began in front of it. -/
theorem token_advance_takeWhile (begun : c.start = c.pos) :
    (c.advance (c.rest.takeWhile cls).length).token = c.rest.takeWhile cls := by
  rw [token_advance begun (List.takeWhile_prefix cls).length_le]
  exact (List.prefix_iff_eq_take.mp (List.takeWhile_prefix cls)).symm

theorem rest_advance_takeWhile :
    (c.advance (c.rest.takeWhile cls).length).rest = c.rest.dropWhile cls := by
  have whole : c.rest.takeWhile cls ++ c.rest.dropWhile cls = c.rest :=
    List.takeWhile_append_dropWhile
  rw [rest_advance]
  exact (congrArg (List.drop _) whole.symm).trans List.drop_left

theorem of_read?_run (begun : c.start = c.pos) (found : c.read? (Scan.run cls) = some d) :
    d.token = c.rest.takeWhile cls ∧ d.rest = c.rest.dropWhile cls := by
  rw [read?_run] at found
  split at found <;> cases found
  exact ⟨token_advance_takeWhile begun, rest_advance_takeWhile⟩

theorem accept_run (c : Cursor) (cls : UInt8 → Bool) :
    (c.accept (Scan.run cls)).2 = c.advance (c.rest.takeWhile cls).length := by
  rw [accept, read?_run]
  by_cases empty : (c.rest.takeWhile cls).length = 0
  · rw [if_pos empty, empty]
    rfl
  · rw [if_neg empty]

end Run

theorem isAhead_of_read? (bounded : scan.IsBounded) (found : c.read? scan = some d) :
    ∃ n, c.IsAhead d n ∧ scan c.rest = some n := by
  obtain ⟨n, taken, rfl⟩ := Option.map_eq_some_iff.mp found
  exact ⟨n, ⟨bounded _ _ taken, rfl⟩, taken⟩

theorem isAhead_accept (bounded : scan.IsBounded) (c : Cursor) :
    ∃ n, c.IsAhead (c.accept scan).2 n := by
  unfold accept
  split
  · obtain ⟨n, ahead, _⟩ := isAhead_of_read? bounded ‹_›
    exact ⟨n, ahead⟩
  · exact ⟨0, .refl c⟩

theorem isAhead_of_next {b : UInt8} (found : c.next = some (b, d)) :
    c.IsAhead d 1 ∧ c.rest.take 1 = [b] := by
  obtain ⟨first, peeked, same⟩ := Option.map_eq_some_iff.mp found
  obtain ⟨rfl, rfl⟩ := Prod.mk.inj same
  obtain ⟨rest, unread⟩ := List.head?_eq_some_iff.mp peeked
  exact ⟨⟨by simp [unread], rfl⟩, by simp [unread]⟩

theorem WellFormed.beginToken (wf : c.WellFormed) : c.beginToken.WellFormed :=
  ⟨Nat.le_refl _, wf.2⟩

theorem rest_ne_nil (wf : c.WellFormed) (unread : c.pos < c.stop) : c.rest ≠ [] :=
  List.ne_nil_of_length_pos <| by
    rw [wf.length_rest]
    exact Nat.sub_pos_of_lt unread

/-- A cursor is at its end where nothing is left. -/
theorem atEnd_eq_isEmpty_rest (wf : c.WellFormed) : c.atEnd = c.rest.isEmpty := by
  rw [Bool.eq_iff_iff, List.isEmpty_iff_length_eq_zero, wf.length_rest, remaining,
    Nat.sub_eq_zero_iff_le, atEnd, decide_eq_true_iff]

/-- A search goes on behind the window. -/
theorem drop_pos_eq (wf : c.WellFormed) : c.bytes.drop c.pos = c.rest ++ c.bytes.drop c.stop := by
  have inside : c.pos ≤ (c.bytes.take c.stop).length := by
    rw [List.length_take, Nat.min_eq_left wf.2.2]
    exact wf.2.1
  have cut : c.bytes.take c.stop ++ c.bytes.drop c.stop = c.bytes := List.take_append_drop ..
  rw [rest, Bytes.slice, ← List.drop_append_of_le_length inside, cut]

/-- A jump leads onto the first such byte that is unread. If there is none, it does not move. -/
theorem jumpTo_cases (wf : c.WellFormed) (b : UInt8) :
    (∃ front back, c.rest = front ++ b :: back ∧ b ∉ front ∧
        c.jumpTo b = (.moved (c.pos + front.length), c.advance front.length)) ∨
      b ∉ c.rest ∧ ∀ target after, c.jumpTo b ≠ (.moved target, after) := by
  have searched : c.find b c.pos =
      ((c.rest ++ c.bytes.drop c.stop).findIdx? (· == b)).map (c.pos + ·) := by
    rw [find, drop_pos_eq wf, List.idxOf?]
  have length : c.rest.length = c.stop - c.pos := wf.length_rest
  by_cases member : b ∈ c.rest
  · obtain ⟨front, back, split, first⟩ := List.eq_append_cons_of_mem member
    have found : c.find b c.pos = some (c.pos + front.length) := by
      have before : front.findIdx? (· == b) = none := by
        exact List.findIdx?_eq_none_iff.mpr fun x inside =>
          beq_eq_false_iff_ne.mpr fun same => first (same ▸ inside)
      rw [searched, split, List.append_assoc, List.findIdx?_append, before, List.cons_append,
        List.findIdx?_cons]
      simp
    have inside : c.start ≤ c.pos + front.length ∧ c.pos + front.length < c.stop := by
      rw [split, List.length_append, List.length_cons] at length
      have := wf.1
      omega
    exact .inl ⟨front, back, split, first, by simp only [jumpTo, found, if_pos inside]; rfl⟩
  · refine .inr ⟨member, fun target after moved => ?_⟩
    have before : c.rest.findIdx? (· == b) = none := by
      exact List.findIdx?_eq_none_iff.mpr fun x inside =>
        beq_eq_false_iff_ne.mpr fun same => member (same ▸ inside)
    rw [List.findIdx?_append, before, Option.none_or] at searched
    unfold jumpTo at moved
    split at moved
    · cases moved
    · rename_i target found
      split at moved
      · rename_i inside
        rw [searched, Option.map_map] at found
        obtain ⟨n, _, rfl⟩ := Option.map_eq_some_iff.mp found
        simp only [Function.comp_apply] at inside
        omega
      · cases moved
theorem isAhead_jumpToEnd (wf : c.WellFormed) : c.IsAhead c.jumpToEnd c.rest.length := by
  refine ⟨Nat.le_refl _, ?_⟩
  rw [wf.length_rest]
  simp only [jumpToEnd, advance, remaining, Nat.add_sub_cancel' wf.2.1]

end Octets.Cursor
