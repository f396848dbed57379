import Octets.Proofs.Lexer.Tiling

/-!
# Lexers that come to the end

A tokenizer that reads something wherever there is something left is never refused a byte and
never stalls. Its lexer comes to the end of every input without an error, whatever the options
are, within one step for each byte and one more for the last line. Further steps change nothing.

## Main definitions

* `Tokenizer.ReadsAll` — the tokenizers that are spoken of

## Main results

* `Lexer.items_of_le` — more steps than it takes change nothing
* `Lexer.exists_tiles_of_readsAll` — the lexemes of an input tile all of it
-/

namespace Octets

variable {μ σ κ : Type}

/-- Wherever bytes are left in the window, a run of some kind is read, which is not empty. -/
def Tokenizer.ReadsAll (t : Tokenizer μ σ κ) : Prop :=
  ∀ memory state (c : Cursor), c.WellFormed → c.pos < c.stop →
    (t.classify memory state c).kind.isSome = true ∧
      c.pos < (t.classify memory state c).cursor.pos

namespace Lexer

variable {t : Tokenizer μ σ κ} {l : Lexer μ σ κ} {input : Bytes} {p : Nat}

/-- The steps one after the other. -/
theorem items_add [DecidableEq σ] (l : Lexer μ σ κ) (n m : Nat) :
    l.items (n + m) =
      ((l.items n).1 ++ ((l.items n).2.items m).1, ((l.items n).2.items m).2) := by
  induction n generalizing l with
  | zero => rw [Nat.zero_add]; rfl
  | succ n ih =>
    cases ended : l.finished with
    | true =>
      rw [items_of_finished ended, items_of_finished ended, items_of_finished ended]
      rfl
    | false =>
      rw [Nat.succ_add, items_succ ended, items_succ ended, ih, List.append_assoc]

/-- More steps than a lexer takes change nothing. -/
theorem items_of_le [DecidableEq σ] {n m : Nat} (finished : (l.items n).2.finished = true)
    (le : n ≤ m) : l.items m = l.items n := by
  induction n generalizing l m with
  | zero =>
    have ended : l.finished = true := finished
    rw [items_of_finished ended, items_of_finished ended]
  | succ n ih =>
    obtain ⟨m, rfl⟩ := Nat.exists_eq_add_of_lt le
    cases ended : l.finished with
    | true => rw [items_of_finished ended, items_of_finished ended]
    | false =>
      rw [items_succ ended] at finished
      rw [items_succ ended, items_succ ended, ih finished (Nat.le_add_right n m)]

/-- A line that is left either brings the lexer further or was the last one. -/
theorem InLine.lt_nextLine_or_finished (here : InLine t input p l) (used : l.cursor.stop = p) :
    p < l.nextLine ∨ l.closeLine.2.finished = true := by
  obtain ⟨last, stop⟩ | ends := here.line.ends
  · right
    have none_left : ¬ l.nextLine < l.input.length := by
      rw [show l.input = input from here.bytes]
      omega
    rw [closeLine_snd, if_neg none_left]
  · exact .inl (used ▸ ends.lt)

theorem exists_closeLine_fst (l : Lexer μ σ κ) :
    ∃ lexemes : List (Lexeme κ), l.closeLine.1.toList = lexemes.map .ok := by
  unfold closeLine
  simp only
  split
  · exact ⟨[_], rfl⟩
  · exact ⟨[], rfl⟩

/-- One step from a place in a line: no error, and closer to the end or at it. -/
theorem InLine.advance_of_readsAll [DecidableEq σ] (readsOn : t.ReadsOn) (readsAll : t.ReadsAll)
    (here : InLine t input p l) :
    ∃ (lexemes : List (Lexeme κ)) (q : Nat), l.advance.1.toList = lexemes.map .ok ∧
      IsAt t input q l.advance.2 ∧ (p < q ∨ l.advance.2.finished = true) := by
  simp only [advance, here.pending, Bool.false_eq_true, if_false]
  split
  · rename_i used
    have stop : l.cursor.stop = p :=
      Nat.le_antisymm (here.pos ▸ of_decide_eq_true used) here.line.start_le
    obtain ⟨lexemes, yields⟩ := exists_closeLine_fst l
    exact ⟨lexemes, l.nextLine, yields, here.isAt_closeLine stop, here.lt_nextLine_or_finished stop⟩
  · rename_i unread
    obtain rfl := here.tokenizer
    have start : l.cursor.beginToken.pos = p := here.pos
    have left : l.cursor.beginToken.pos < l.cursor.beginToken.stop :=
      Nat.lt_of_not_le fun used => unread (decide_eq_true used)
    have wf := here.wellFormed_beginToken
    obtain ⟨kind, moved⟩ := readsAll l.memory l.state _ wf left
    obtain ⟨kind, read⟩ := Option.isSome_iff_exists.mp kind
    have there := here.readOn (readsOn.classify wf l.memory l.state)
      (l.tokenizer.classify l.memory l.state l.cursor.beginToken).memory
      (l.tokenizer.classify l.memory l.state l.cursor.beginToken).state
    simp only [readRun, read, if_pos moved]
    exact ⟨[_], _, rfl, .inl there, .inl (start ▸ moved)⟩

/-- From any place that it has come to, a lexer reads the rest of the input without an error. -/
theorem exists_items_of_readsAll [DecidableEq σ] (readsOn : t.ReadsOn) (readsAll : t.ReadsAll)
    {steps : Nat} (place : IsAt t input p l) (enough : input.length - p < steps) :
    ∃ lexemes : List (Lexeme κ),
      (l.items steps).1 = lexemes.map .ok ∧ (l.items steps).2.finished = true := by
  -- The induction is on the steps, each of which leads further on until the last one.
  induction steps generalizing p l with
  | zero => exact absurd enough (Nat.not_lt_zero _)
  | succ steps ih =>
    obtain here | ⟨finished, _⟩ := place
    case inr =>
      rw [items_of_finished finished]
      exact ⟨[], rfl, finished⟩
    obtain ⟨lexemes, q, yields, place, further | finished⟩ :=
      here.advance_of_readsAll readsOn readsAll
    · have inside := place.le_length
      obtain ⟨rest, items, finished⟩ := ih place (by omega)
      rw [items_succ here.pending]
      exact ⟨lexemes ++ rest, by rw [yields, items, List.map_append], finished⟩
    · rw [items_succ here.pending, items_of_finished finished]
      exact ⟨lexemes, by rw [yields, List.append_nil], finished⟩

/-- A lexer comes to the end of its input without an error. Its lexemes tile the input, and one
that does not emit newlines yields the same but for the terminators of lines. -/
theorem exists_tiles_of_readsAll [DecidableEq σ] (readsOn : t.ReadsOn) (readsAll : t.ReadsAll)
    (newline : ∀ memory, (t.newline memory).isSome) (memory : μ) (input : Bytes) (reset : Bool) :
    ∃ lexemes : List (Lexeme κ), Tiles 0 lexemes input.length ∧
      lexemes.flatMap (·.bytes input) = input ∧
      ∀ steps, input.length < steps →
        let emitting := (start t memory ⟨true, reset⟩ input).items steps
        let silent := (start t memory ⟨false, reset⟩ input).items steps
        (emitting.1 = lexemes.map .ok ∧ emitting.2.finished = true) ∧
          silent.1 = (lexemes.filter (!·.endsLine input)).map .ok ∧
            silent.2.finished = true := by
  obtain ⟨lexemes, error, stop, items, tiling, texts, ends, quiet, finished⟩ :=
    isTiling_items readsOn newline memory input reset (input.length + 1)
  obtain ⟨read, same, ended⟩ :=
    exists_items_of_readsAll readsOn readsAll (isAt_start t memory input reset)
      (show input.length - 0 < input.length + 1 from Nat.lt_succ_self _)
  -- The lexemes of the tiling are those, and behind them there is no error.
  have clean : error = none := by
    cases error with
    | none => rfl
    | some e =>
      have member : Except.error e ∈ read.map (Except.ok (ε := LexError σ)) := by
        rw [← same, items]
        simp [itemsOf]
      simp at member
  subst clean
  obtain rfl : stop = input.length := ends ended rfl
  refine ⟨lexemes, tiling.tiles, texts.trans List.take_length, fun steps enough => ?_⟩
  intro emitting silent
  have settled : emitting = (start t memory ⟨true, reset⟩ input).items (input.length + 1) :=
    items_of_le ended enough
  have settled' : silent = (start t memory ⟨false, reset⟩ input).items (input.length + 1) :=
    items_of_le (finished.trans ended) enough
  rw [settled, settled', items, quiet, finished]
  exact ⟨⟨by simp [itemsOf], ended⟩, by simp [itemsOf], ended⟩

end Lexer

end Octets
