import Octets.Lexer

/-!
# Lines of an input

Where the lines of an input begin and end. The rest of a line, from any place in it,
holds no line feed; behind it comes a terminator, or the input ends there.

## Main definitions

* `Lexer.IsTerminator` — the bytes that end a line
* `Lexer.IsLine` — the rest of a line and where the next one begins

## Main results

* `Bytes.lineAt_eq_add` — the lines that begin in a slice
* `Lexer.isLine_lineBounds` — lines are cut where they end
* `Lexer.lineBounds_append` — the lines of an input are lines of a longer one
-/

namespace Octets

namespace Bytes

variable {bytes : Bytes} {start stop : Nat} {b : UInt8}

theorem slice_eq_take_drop : bytes.slice start stop = (bytes.drop start).take (stop - start) := by
  rw [slice, List.drop_take]

theorem mem_slice_iff :
    b ∈ bytes.slice start stop ↔ ∃ i, start ≤ i ∧ i < stop ∧ bytes[i]? = some b := by
  simp only [slice, List.mem_iff_getElem?, List.getElem?_drop, List.getElem?_take]
  constructor
  · rintro ⟨i, found⟩
    split at found
    · exact ⟨start + i, Nat.le_add_right _ _, ‹_›, found⟩
    · cases found
  · rintro ⟨i, low, high, found⟩
    refine ⟨i - start, ?_⟩
    rw [Nat.add_sub_cancel' low, if_pos high, found]

@[simp] theorem slice_self (bytes : Bytes) (start : Nat) : bytes.slice start start = [] := by
  simp [slice_eq_take_drop]

theorem slice_eq_cons (first : bytes[start]? = some b) (ascend : start < stop) :
    bytes.slice start stop = b :: bytes.slice (start + 1) stop := by
  obtain ⟨bound, rfl⟩ := List.getElem?_eq_some_iff.mp first
  rw [slice_eq_take_drop, slice_eq_take_drop, List.drop_eq_getElem_cons bound,
    ← Nat.succ_pred_eq_of_pos (Nat.sub_pos_of_lt ascend), List.take_succ_cons]
  rfl

theorem take_append_slice (ascend : start ≤ stop) :
    bytes.take start ++ bytes.slice start stop = bytes.take stop := by
  have front : (bytes.take stop).take start = bytes.take start := by
    rw [List.take_take, Nat.min_eq_left ascend]
  rw [slice, ← front, List.take_append_drop]

theorem slice_append_slice {mid : Nat} (low : start ≤ mid) (high : mid ≤ stop) :
    bytes.slice start mid ++ bytes.slice mid stop = bytes.slice start stop := by
  have behind : bytes.drop mid = (bytes.drop start).drop (mid - start) := by
    rw [List.drop_drop, Nat.add_sub_cancel' low]
  have length : stop - start = (mid - start) + (stop - mid) := by omega
  rw [slice_eq_take_drop, slice_eq_take_drop, slice_eq_take_drop, behind, length, List.take_add]

/-- A slice of some bytes is one of a longer byte string that they are part of. -/
theorem slice_append_append (before behind : Bytes) (inside : stop ≤ bytes.length) :
    (before ++ bytes ++ behind).slice (before.length + start) (before.length + stop) =
      bytes.slice start stop := by
  rw [slice, slice, List.append_assoc, List.take_length_add_append, List.drop_length_add_append,
    List.take_append_of_le_length inside]

theorem getElem?_append_append (before behind : Bytes) {i : Nat} (inside : i < bytes.length) :
    (before ++ bytes ++ behind)[before.length + i]? = bytes[i]? := by
  rw [List.append_assoc, List.getElem?_append_right (Nat.le_add_right _ _),
    Nat.add_sub_cancel_left, List.getElem?_append_left inside]

/-- A line feed in between begins a new line. -/
theorem lineAt_eq_add (ascend : start ≤ stop) :
    bytes.lineAt stop = bytes.lineAt start + (bytes.slice start stop).count Byte.lf := by
  rw [lineAt, lineAt, ← take_append_slice ascend, List.count_append, Nat.add_right_comm]

end Bytes

namespace Lexer

variable {input : Bytes} {start stop next pos : Nat}

/-- The bytes that end a line. -/
def IsTerminator (bytes : Bytes) : Prop := bytes = [Byte.lf] ∨ bytes = [Byte.cr, Byte.lf]

theorem IsTerminator.count {bytes : Bytes} (ends : IsTerminator bytes) :
    bytes.count Byte.lf = 1 := by
  obtain rfl | rfl := ends <;> rfl

/-- A terminator is not empty. -/
theorem IsTerminator.lt (ends : IsTerminator (input.slice start stop)) : start < stop := by
  refine Nat.lt_of_not_le fun descend => ?_
  have empty : input.slice start stop = [] :=
    List.drop_eq_nil_of_le (Nat.le_trans (List.length_take_le _ _) descend)
  exact absurd ends.count (by simp [empty])

/-- The rest of a line, up to `stop`. The next line begins at `next`. -/
structure IsLine (input : Bytes) (start stop next : Nat) : Prop where
  start_le : start ≤ stop
  le_next : stop ≤ next
  next_le : next ≤ input.length
  clean : Byte.lf ∉ input.slice start stop
  ends : (next = stop ∧ stop = input.length) ∨ IsTerminator (input.slice stop next)

/-- From a place further on, it is still the rest of the line. -/
theorem IsLine.advance (line : IsLine input start stop next) (forward : start ≤ pos)
    (inside : pos ≤ stop) : IsLine input pos stop next := by
  refine ⟨inside, line.le_next, line.next_le, fun member => line.clean ?_, line.ends⟩
  obtain ⟨i, low, high, found⟩ := Bytes.mem_slice_iff.mp member
  exact Bytes.mem_slice_iff.mpr ⟨i, Nat.le_trans forward low, high, found⟩

/-- A part of a line holds no line feed. -/
theorem IsLine.not_mem_slice (line : IsLine input start stop next) (inside : pos ≤ stop) :
    Byte.lf ∉ input.slice start pos := by
  intro member
  obtain ⟨i, low, high, found⟩ := Bytes.mem_slice_iff.mp member
  exact line.clean (Bytes.mem_slice_iff.mpr ⟨i, low, Nat.lt_of_lt_of_le high inside, found⟩)

/-- Lines are cut where they end. -/
theorem isLine_lineBounds (bound : start ≤ input.length) :
    IsLine input start (lineBounds input start).1 (lineBounds input start).2 := by
  unfold lineBounds
  split
  · rename_i absent
    refine ⟨bound, Nat.le_refl _, Nat.le_refl _, fun member => ?_, .inl ⟨rfl, rfl⟩⟩
    exact List.idxOf?_eq_none_iff.mp absent (List.mem_of_mem_take
      (Bytes.slice_eq_take_drop ▸ member))
  · rename_i n found
    obtain ⟨short, here, before⟩ := List.idxOf?_eq_some_iff.mp found
    have bound' : start + n < input.length := by
      rw [List.length_drop] at short
      omega
    have feed : input[start + n]? = some Byte.lf := by
      rw [← List.getElem?_drop, List.getElem?_eq_getElem short, here]
    -- No byte before the line feed is one.
    have clean (m : Nat) (inside : m ≤ n) : Byte.lf ∉ input.slice start (start + m) := by
      intro member
      obtain ⟨i, low, high, found⟩ := Bytes.mem_slice_iff.mp member
      have here' : (input.drop start)[i - start]? = some Byte.lf := by
        rw [List.getElem?_drop, Nat.add_sub_cancel' low, found]
      obtain ⟨_, here'⟩ := List.getElem?_eq_some_iff.mp here'
      exact before (i - start) (by omega) here'
    have last : input.slice (start + n) (start + n + 1) = [Byte.lf] := by
      rw [Bytes.slice_eq_cons feed (Nat.lt_succ_self _), Bytes.slice_self]
    by_cases behind : 0 < n ∧ input[start + n - 1]? = some Byte.cr
    · simp only [if_pos behind]
      obtain ⟨positive, carriage⟩ := behind
      refine ⟨by omega, by omega, bound', ?_, .inr (.inr ?_)⟩
      · exact Nat.add_sub_assoc positive start ▸ clean (n - 1) (Nat.sub_le n 1)
      · have behind : start + n - 1 + 1 = start + n := Nat.sub_add_cancel (by omega)
        rw [Bytes.slice_eq_cons carriage (by omega), behind, last]
    · simp only [if_neg behind]
      exact ⟨Nat.le_add_right _ _, Nat.le_succ _, bound', clean n (Nat.le_refl n), .inr (.inl last)⟩

/-- A line whose line feed is in the input ends in a terminator. -/
theorem lineBounds_lt (held : Byte.lf ∈ input.drop start) :
    (lineBounds input start).1 < (lineBounds input start).2 := by
  unfold lineBounds
  cases found : (input.drop start).idxOf? Byte.lf with
  | none => exact absurd held (List.idxOf?_eq_none_iff.mp found)
  | some n =>
    simp only
    split
    · exact Nat.lt_of_le_of_lt (Nat.sub_le _ 1) (Nat.lt_succ_self _)
    · exact Nat.lt_succ_self _

/-- The line that begins at a place of the input ends where it does, if the input is last or
the line feed of the line is in it. -/
theorem lineBounds_append (before : Bytes) {behind : Bytes} (bound : start ≤ input.length)
    (held : behind = [] ∨ Byte.lf ∈ input.drop start) :
    lineBounds (before ++ input ++ behind) (before.length + start) =
      (before.length + (lineBounds input start).1, before.length + (lineBounds input start).2) := by
  have unread : (before ++ input ++ behind).drop (before.length + start) =
      input.drop start ++ behind := by
    rw [List.append_assoc, List.drop_length_add_append, List.drop_append_of_le_length bound]
  unfold lineBounds
  rw [unread]
  cases found : (input.drop start).idxOf? Byte.lf with
  | none =>
    obtain rfl : behind = [] := held.resolve_right (List.idxOf?_eq_none_iff.mp found)
    simp only [List.append_nil, found, List.length_append]
  | some n =>
    obtain ⟨short, _⟩ := List.idxOf?_eq_some_iff.mp found
    have found' : (input.drop start ++ behind).idxOf? Byte.lf = some n := by
      rw [List.idxOf?, List.findIdx?_append]
      exact congrArg (Option.or · _) found
    have further : before.length + start + n = before.length + (start + n) := Nat.add_assoc ..
    have carriage : 0 < n → (before ++ input ++ behind)[before.length + (start + n) - 1]? =
        input[start + n - 1]? := by
      intro positive
      rw [List.length_drop] at short
      rw [Nat.add_sub_assoc (by omega)]
      exact Bytes.getElem?_append_append before behind (by omega)
    simp only [found', further]
    by_cases ends : 0 < n ∧ input[start + n - 1]? = some Byte.cr
    · rw [if_pos ends, if_pos ⟨ends.1, (carriage ends.1).trans ends.2⟩]
      simp only [Prod.mk.injEq]
      omega
    · rw [if_neg ends, if_neg fun ends' => ends ⟨ends'.1, (carriage ends'.1).symm.trans ends'.2⟩]
      rfl

end Lexer

end Octets
