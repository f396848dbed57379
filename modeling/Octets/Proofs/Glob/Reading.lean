import Octets.Proofs.Glob.Tokens
import Octets.Proofs.Lexer.Independence

/-!
# Reading a pattern

Which token the tokenizer reads is settled by its state and by what is left of the line. So the
tokens of a line are found one after the other, and those of a pattern line by line: a line feed
that no carriage return precedes is a token of its own, and behind it everything starts anew. The
assembly takes the tokens one after the other, too, wherever they stand.

## Main definitions

* `Glob.ReadsToken` — the token that is read in front of some bytes
* `Glob.LineTokens`, `Glob.PatternTokens` — the tokens of the rest of a line, and of a pattern
* `Assembly.Becomes` — where some tokens lead an assembly

## Main results

* `tokens_eq_of_patternTokens` — these are the tokens of the pattern
* `parse_of_becomes` — a pattern whose tokens can be put together
-/

namespace Octets

namespace Lexer

variable {input line rest : Bytes} {start : Nat}

theorem lineBounds_of_not_mem (clean : Byte.lf ∉ input.drop start) :
    lineBounds input start = (input.length, input.length) := by
  unfold lineBounds
  rw [List.idxOf?_eq_none_iff.mpr clean]

/-- A line feed that no carriage return precedes is the terminator alone. -/
theorem lineBounds_of_append_lf (unread : input.drop start = line ++ Byte.lf :: rest)
    (clean : Byte.lf ∉ line) (bare : line.getLast? ≠ some Byte.cr) :
    lineBounds input start = (start + line.length, start + line.length + 1) := by
  have found : (input.drop start).idxOf? Byte.lf = some line.length := by
    have absent : line.findIdx? (· == Byte.lf) = none := List.idxOf?_eq_none_iff.mpr clean
    rw [unread, List.idxOf?, List.findIdx?_append, absent]
    simp [List.findIdx?_cons]
  -- The byte in front of the line feed is the last one of the line, if the line has any.
  have before (positive : 0 < line.length) :
      input[start + line.length - 1]? = line.getLast? := by
    rw [Nat.add_sub_assoc positive, ← List.getElem?_drop, unread,
      List.getElem?_append_left (Nat.sub_lt positive Nat.one_pos), List.getLast?_eq_getElem?]
  unfold lineBounds
  rw [found]
  refine if_neg fun ends => bare ?_
  rw [← before ends.1]
  exact ends.2

end Lexer

namespace Glob

/-! ## Tokens of a line -/

/-- In front of these bytes, and if no more than that is left of the line, this token is read. -/
def ReadsToken (s : State) (text behind : Bytes) (token : Token) (next : State) : Prop :=
  text ≠ [] ∧ ∀ c : Cursor, c.rest = text ++ behind →
    readToken s c = .reads token next (c.advance text.length)

/-- The tokens of the rest of a line, which is read from a state on. -/
inductive LineTokens : State → Bytes → List Lexed → Prop
  | nil (s : State) : LineTokens s [] []
  | cons {s next : State} {text behind : Bytes} {token : Token} {listed : List Lexed} :
      ReadsToken s text behind token next → LineTokens next behind listed →
        LineTokens s (text ++ behind) ((token, text) :: listed)

/-- The tokens of a pattern. Its lines end in line feeds that no carriage returns precede. -/
inductive PatternTokens : Bytes → List Lexed → Prop
  | last {line : Bytes} {listed : List Lexed} :
      Byte.lf ∉ line → LineTokens .body line listed → PatternTokens line listed
  | line {line rest : Bytes} {listed others : List Lexed} :
      Byte.lf ∉ line → line.getLast? ≠ some Byte.cr → LineTokens .body line listed →
        PatternTokens rest others →
          PatternTokens (line ++ Byte.lf :: rest) (listed ++ (.newline, [Byte.lf]) :: others)

/-! ## Steps of the lexer -/

/-- Between two lexers, these tokens are yielded. -/
def Yields (pattern : Bytes) (first : Lexer Unit State Token) (listed : List Lexed)
    (last : Lexer Unit State Token) : Prop :=
  ∃ k, ∃ lexemes : List (Lexeme Token), lexemes.map (lexed pattern) = listed ∧
    ∀ steps, (first.items (k + steps)).1 = lexemes.map .ok ++ (last.items steps).1

/-- A lexer in a line of a pattern, with its tokenizer in a state and some bytes left to read. -/
structure IsReading (pattern : Bytes) (p : Nat) (s : State) (unread : Bytes)
    (l : Lexer Unit State Token) : Prop where
  here : Lexer.InLine tokenizer pattern p l
  options : l.options = {}
  state : l.state = s
  unread : l.cursor.rest = unread

/-- A lexer at the front of a line, or at the end of the pattern. -/
inductive IsAtFront (pattern : Bytes) (p : Nat) (l : Lexer Unit State Token) : Prop
  | line : IsReading pattern p .body (pattern.slice p (Lexer.lineBounds pattern p).1) l →
      l.nextLine = (Lexer.lineBounds pattern p).2 → IsAtFront pattern p l
  | finished : l.finished = true → p = pattern.length → IsAtFront pattern p l

variable {pattern text behind unread line rest : Bytes} {p : Nat} {s next : State} {token : Token}
  {listed others : List Lexed} {l middle last : Lexer Unit State Token}

theorem Yields.refl (pattern : Bytes) (l : Lexer Unit State Token) : Yields pattern l [] l :=
  ⟨0, [], rfl, fun steps => by rw [Nat.zero_add]; rfl⟩

theorem Yields.trans (first : Yields pattern l listed middle)
    (second : Yields pattern middle others last) : Yields pattern l (listed ++ others) last := by
  obtain ⟨k, lexemes, rfl, items⟩ := first
  obtain ⟨m, others, rfl, items'⟩ := second
  refine ⟨k + m, lexemes ++ others, List.map_append, fun steps => ?_⟩
  rw [Nat.add_assoc, items, items', List.map_append, List.append_assoc]

theorem yields_advance {lexeme : Lexeme Token} (pending : l.finished = false)
    (advances : l.advance = (some (.ok lexeme), last)) :
    Yields pattern l [lexed pattern lexeme] last := by
  refine ⟨1, [lexeme], rfl, fun steps => ?_⟩
  rw [Nat.add_comm, Lexer.items_succ pending, advances]
  rfl

theorem yields_silent (pending : l.finished = false) (advances : l.advance = (none, last)) :
    Yields pattern l [] last := by
  refine ⟨1, [], rfl, fun steps => ?_⟩
  rw [Nat.add_comm, Lexer.items_succ pending, advances]
  rfl

/-- Where a token can be read, it is. -/
theorem IsReading.advance (reading : IsReading pattern p s (text ++ behind) l)
    (reads : ReadsToken s text behind token next) :
    ∃ after, Yields pattern l [(token, text)] after ∧
      IsReading pattern (p + text.length) next behind after ∧ after.nextLine = l.nextLine := by
  obtain ⟨here, options, rfl, unread⟩ := reading
  obtain ⟨some_byte, reads⟩ := reads
  have wf := here.wellFormed_beginToken
  have start : l.cursor.beginToken.pos = p := here.pos
  have unread' : l.cursor.beginToken.rest = text ++ behind := unread
  have ahead : l.cursor.beginToken.IsAhead (l.cursor.beginToken.advance text.length) text.length :=
    ⟨unread' ▸ (List.prefix_append text behind).length_le, rfl⟩
  have run : tokenizer.classify () l.state l.cursor.beginToken =
      Move.reads token next (l.cursor.beginToken.advance text.length) := by
    rw [classify_eq, reads _ unread']
    rfl
  -- The token moves the cursor on, so the lexer takes it and stays in the line.
  have leads := readsOn_tokenizer.classify wf l.memory l.state
  rw [run] at leads
  have moved : p < p + text.length := Nat.lt_add_of_pos_right (List.length_pos_iff.mpr some_byte)
  have stop : (l.cursor.beginToken.advance text.length).pos = p + text.length :=
    congrArg (· + text.length) start
  have advances : l.advance = (some (.ok ⟨token, p, p + text.length, l.line⟩),
      { l with state := next, cursor := l.cursor.beginToken.advance text.length }) := by
    have left : l.cursor.atEnd = false := by
      rw [show l.cursor.atEnd = l.cursor.beginToken.atEnd from rfl,
        Cursor.atEnd_eq_isEmpty_rest wf, unread']
      exact List.isEmpty_eq_false_iff.mpr (List.append_ne_nil_of_left_ne_nil some_byte behind)
    simp only [Lexer.advance, here.pending, left, Bool.false_eq_true, if_false, Lexer.readRun,
      here.tokenizer, run, start, Move.reads, stop, if_pos moved]
  have slice : pattern.slice p (p + text.length) = text := by
    have taken := ahead.slice
    rw [stop, start, unread', List.take_left] at taken
    exact (congrArg (·.slice p (p + text.length)) here.bytes).symm.trans taken
  have there := here.readOn leads () next
  rw [show (Move.reads token next (l.cursor.beginToken.advance text.length)).cursor.pos =
    p + text.length from stop] at there
  refine ⟨_, ?_, ⟨there, options, rfl, ?_⟩, rfl⟩
  · have read : lexed pattern ⟨token, p, p + text.length, l.line⟩ = (token, text) :=
      congrArg (Prod.mk token) slice
    exact read ▸ yields_advance here.pending advances
  · show (l.cursor.beginToken.advance text.length).rest = behind
    rw [Cursor.rest_advance, unread', List.drop_left]

/-- The tokens of the rest of a line are read, one after the other. -/
theorem IsReading.lineTokens (reading : IsReading pattern p s unread l)
    (spells : LineTokens s unread listed) :
    ∃ after last, Yields pattern l listed after ∧
      IsReading pattern (p + unread.length) last [] after ∧ after.nextLine = l.nextLine := by
  induction spells generalizing p l with
  | nil s => exact ⟨l, s, .refl pattern l, reading, rfl⟩
  | cons reads _ ih =>
    obtain ⟨middle, first, there, same⟩ := reading.advance reads
    obtain ⟨after, last, rest, ends, same'⟩ := ih there
    refine ⟨after, last, first.trans rest, ?_, same'.trans same⟩
    rwa [List.length_append, ← Nat.add_assoc]

theorem IsReading.advance_of_nil (reading : IsReading pattern p s [] l) :
    l.cursor.stop = p ∧ l.advance = l.closeLine := by
  have here := reading.here
  have used : l.cursor.atEnd = true :=
    (Cursor.atEnd_eq_isEmpty_rest here.wellFormed_beginToken).trans
      (List.isEmpty_iff.mpr reading.unread)
  refine ⟨Nat.le_antisymm (here.pos ▸ of_decide_eq_true used) here.line.start_le, ?_⟩
  rw [Lexer.advance, if_neg (by simp [here.pending]), if_pos used]

/-- Behind the last line is the end. -/
theorem IsReading.leave_last (reading : IsReading pattern p s [] l)
    (last : l.nextLine = pattern.length) (ends : p = pattern.length) :
    ∃ after, Yields pattern l [] after ∧ after.finished = true := by
  have here := reading.here
  obtain ⟨used, advances⟩ := reading.advance_of_nil
  have terminator := here.terminator
  rw [if_neg (by omega)] at terminator
  have item : l.closeLine.1 = none := by
    simp only [Lexer.closeLine, reading.options, terminator]
  refine ⟨l.closeLine.2, yields_silent here.pending (advances.trans (Prod.ext item rfl)), ?_⟩
  have inside : l.input.length ≤ l.nextLine :=
    Nat.le_of_eq (last.trans (congrArg List.length here.bytes.symm)).symm
  rw [Lexer.closeLine_of_le inside]

/-- A lexer that enters a line. -/
theorem isAtFront_of_inLine (here : Lexer.InLine tokenizer pattern p (l.openLine p))
    (bytes : l.input = pattern) (options : l.options = {}) (state : l.state = .body) :
    IsAtFront pattern p (l.openLine p) := by
  have bound : p ≤ l.input.length := bytes ▸ Lexer.IsAt.le_length (.inl here)
  have cursor := Lexer.cursor_openLine bound
  refine .line ⟨here, options, state, ?_⟩ (by subst bytes; rfl)
  rw [cursor, bytes]
  rfl

/-- A line feed that ends a line is a token, and leads to the front of the next line. -/
theorem IsReading.leave_line (reading : IsReading pattern p s [] l) (next : l.nextLine = p + 1)
    (feed : pattern.slice p (p + 1) = [Byte.lf]) :
    ∃ after, Yields pattern l [(.newline, [Byte.lf])] after ∧ IsAtFront pattern (p + 1) after := by
  have here := reading.here
  obtain ⟨used, advances⟩ := reading.advance_of_nil
  have terminator := here.terminator
  rw [if_pos (by omega)] at terminator
  have item : l.closeLine.1 = some (.ok ⟨.newline, p, p + 1, l.line⟩) := by
    simp only [Lexer.closeLine, reading.options, terminator, here.tokenizer, used, next]
    rfl
  refine ⟨l.closeLine.2, ?_, ?_⟩
  · have read : lexed pattern ⟨.newline, p, p + 1, l.line⟩ = (.newline, [Byte.lf]) :=
      congrArg (Prod.mk _) feed
    exact read ▸ yields_advance here.pending (advances.trans (Prod.ext item rfl))
  · obtain inside | ⟨finished, ends⟩ := here.isAt_closeLine used
    · have more : l.nextLine < l.input.length := by
        refine Nat.lt_of_not_le fun last => ?_
        have pending := inside.pending
        rw [Lexer.closeLine_of_le last] at pending
        exact absurd pending (by simp)
      have opens := Lexer.closeLine_of_lt (by rw [reading.options]) more
      rw [opens, next] at inside ⊢
      exact isAtFront_of_inLine inside here.bytes reading.options (by rw [here.tokenizer]; rfl)
    · exact .finished finished (next ▸ ends)

/-! ## Tokens of a pattern -/

theorem PatternTokens.eq_nil (spells : PatternTokens [] listed) : listed = [] := by
  generalize empty : ([] : Bytes) = pattern at spells
  cases spells with
  | last _ spells =>
    subst empty
    generalize empty : ([] : Bytes) = line at spells
    cases spells with
    | nil => rfl
    | cons reads _ => exact absurd (List.append_eq_nil_iff.mp empty.symm).1 reads.1
  | line => simp at empty

/-- From the front of a line on, the tokens of the rest of a pattern are read. -/
theorem IsAtFront.patternTokens (front : IsAtFront pattern p l) (left : pattern.drop p = rest)
    (spells : PatternTokens rest listed) :
    ∃ after, Yields pattern l listed after ∧ after.finished = true := by
  -- The lexer may have finished at the end of the pattern, where an empty line is left to read.
  induction spells generalizing p l with
  | @last line listed clean spells =>
    cases front with
    | finished finished ends =>
      obtain rfl : [] = line := by rw [← left, ends, List.drop_length]
      obtain rfl := PatternTokens.eq_nil (.last clean spells)
      exact ⟨l, .refl pattern l, finished⟩
    -- With no line feed in what is left, the line goes on to the end of the pattern.
    | line reading next =>
      have bound := Lexer.IsAt.le_length (.inl reading.here)
      rw [Lexer.lineBounds_of_not_mem (left ▸ clean)] at reading next
      have whole : pattern.slice p pattern.length = line := by
        rw [← left, Bytes.slice, List.take_length]
      rw [whole] at reading
      obtain ⟨after, last, yields, ends, same⟩ := reading.lineTokens spells
      have length : p + line.length = pattern.length := by
        rw [← left, List.length_drop, Nat.add_sub_cancel' bound]
      obtain ⟨final, silent, finished⟩ := ends.leave_last (same.trans next) length
      exact ⟨final, List.append_nil listed ▸ yields.trans silent, finished⟩
  | @line line rest listed others clean bare spells _ ih =>
    cases front with
    | finished finished ends =>
      rw [ends, List.drop_length] at left
      exact absurd left (by simp)
    | line reading next =>
      rw [Lexer.lineBounds_of_append_lf left clean bare] at reading next
      have cut : pattern.slice p (p + line.length) = line := by
        rw [Bytes.slice_eq_take_drop, left, Nat.add_sub_cancel_left, List.take_left]
      rw [cut] at reading
      obtain ⟨after, last, yields, ends, same⟩ := reading.lineTokens spells
      have behind : pattern.drop (p + line.length) = Byte.lf :: rest := by
        rw [← List.drop_drop, left, List.drop_left]
      have feed : pattern.slice (p + line.length) (p + line.length + 1) = [Byte.lf] := by
        rw [Bytes.slice_eq_take_drop, behind, Nat.add_sub_cancel_left]
        rfl
      obtain ⟨middle, newline, front⟩ := ends.leave_line (same.trans next) feed
      have left' : pattern.drop (p + line.length + 1) = rest := by
        rw [← List.drop_drop, behind]
        rfl
      obtain ⟨final, below, finished⟩ := ih front left'
      exact ⟨final, yields.trans (newline.trans below), finished⟩

theorem isAtFront_lexer (pattern : Bytes) : IsAtFront pattern 0 (lexer {} pattern) := by
  obtain here | ⟨finished, ends⟩ := Lexer.isAt_start tokenizer () pattern true
  · cases pattern with
    | nil => exact absurd here.pending (by simp [Lexer.start])
    | cons b rest => exact isAtFront_of_inLine here rfl rfl rfl
  · exact .finished finished ends

/-- The tokens of a pattern are those that stand in its lines, with the line feeds in between. -/
theorem tokens_eq_of_patternTokens (spells : PatternTokens pattern listed) :
    tokens pattern = listed := by
  obtain ⟨after, ⟨k, lexemes, rfl, items⟩, ended⟩ :=
    (isAtFront_lexer pattern).patternTokens rfl spells
  have finished : ((lexer {} pattern).items (stepBound pattern)).2.finished = true := by
    obtain ⟨_, _, _, _, _, finished⟩ :=
      exists_path_items (hasCome_lexer pattern) (Nat.lt_succ_self pattern.length)
    exact finished
  -- The bound on the steps is enough, so some more steps change nothing.
  have all : ((lexer {} pattern).items (stepBound pattern)).1 = lexemes.map .ok := by
    have more := items (stepBound pattern)
    rwa [Lexer.items_of_le finished (Nat.le_add_left _ k), Lexer.items_of_finished ended,
      List.append_nil] at more
  rw [tokens, all, List.filterMap_map]
  exact congrFun List.filterMap_eq_map lexemes

/-! ## Assembling tokens -/

/-- Where some tokens lead an assembly, whatever the offsets at which they stand. -/
def Assembly.Becomes : List Lexed → Assembly → Assembly → Prop
  | [], a, b => a = b
  | (token, text) :: rest, a, c =>
    ∀ offset, ∃ b, a.push token text offset = .ok b ∧ Becomes rest b c

variable {a b c : Assembly}

theorem Assembly.Becomes.append (first : Becomes listed a b) (second : Becomes others b c) :
    Becomes (listed ++ others) a c := by
  induction listed generalizing a with
  | nil =>
    obtain rfl : a = b := first
    exact second
  | cons lexed listed ih =>
    intro offset
    obtain ⟨middle, pushed, rest⟩ := first offset
    exact ⟨middle, pushed, ih rest⟩

theorem Assembly.Becomes.assemble {lexemes : List (Lexeme Token)}
    (becomes : Becomes (lexemes.map (lexed pattern)) a b) :
    assemble pattern a (lexemes.map .ok) = .ok b := by
  induction lexemes generalizing a with
  | nil => exact congrArg Except.ok becomes
  | cons lexeme lexemes ih =>
    obtain ⟨middle, pushed, rest⟩ := becomes lexeme.start
    simp only [List.map_cons, Glob.assemble, pushed]
    exact ih rest

/-- A pattern is compiled if its tokens can be put together. -/
theorem parse_of_becomes {m : Matcher} (some_byte : pattern ≠ [])
    (spells : PatternTokens pattern listed) (becomes : Assembly.Becomes listed .empty a)
    (finishes : a.finish = .ok m) : parse pattern = .ok ⟨pattern, m, m.push .finish⟩ := by
  obtain ⟨lexemes, last, items, _, same, _⟩ := exists_path_tokens pattern
  have assembled : assemble pattern .empty (lexemes.map .ok) = .ok a := by
    refine Assembly.Becomes.assemble ?_
    rwa [← same, tokens_eq_of_patternTokens spells]
  unfold parse
  rw [if_neg (by simpa using some_byte)]
  simp only [items, assembled, finishes]

end Glob

end Octets
