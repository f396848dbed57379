import Octets.Proofs.Lexer.Total

/-!
# Lines lex independently

A tokenizer without a memory whose steps look at the rest of the line only, and a lexer that
begins every line in the initial state: then a line is lexed as if it were the only one. So if
an input ends in a line feed and more is put behind it, its items stay what they are, and
behind them come the items of what has been put there, on later lines. After an error
nothing comes.

A lexer on the longer input is compared with one on a part of it, step by step. It *tracks*
the other as long as that is in a line of the part; when that comes to the end of the part, it
is at the front of what stands behind, and tracks a lexer which starts there.

## Main definitions

* `Tokenizer.StepsAt`, `Tokenizer.IsLocal` — the tokenizers that are spoken of
* `LexItem.moved` — an item, so much further on
* `Lexer.Tracks` — a lexer at the same place of a longer input

## Main results

* `Tokenizer.IsLocal.classify` — a run depends on the rest of the line only
* `Lexer.Tracks.advance` — one step on the part and on the whole
* `Lexer.items_append` — the items of two inputs, one behind the other
-/

namespace Octets

variable {μ σ κ : Type}

/-! ## Tokenizers that look at the line -/

/-- The cursors at which a tokenizer is let step: those at the front of a token, and those that
have been taken back there behind another step. -/
inductive Tokenizer.StepsAt (t : Tokenizer Unit σ κ) : Cursor → Prop
  | front {c : Cursor} : c.WellFormed → c.start = c.pos → t.StepsAt c
  | back {c : Cursor} (state : σ) : t.StepsAt c → t.StepsAt ((t.step () state c).cursor.seek c.pos)

/-- Two transitions that do the same, and lead equally far from the given positions. -/
structure Transition.Alike (p q : Nat) (first second : Transition μ σ κ) : Prop where
  kind : second.kind = first.kind
  state : second.state = first.state
  advance : ∃ n, first.cursor.pos = p + n ∧ second.cursor.pos = q + n

/-- What a step does, and how far it reads on in the line, depends on the state and on the
unread bytes of the line. -/
structure Tokenizer.IsLocal (t : Tokenizer Unit σ κ) : Prop where
  readsOn : t.ReadsOn
  alike : ∀ state (c d : Cursor), t.StepsAt c → t.StepsAt d → d.rest = c.rest →
    (t.step () state c).Alike c.pos d.pos (t.step () state d)

theorem Cursor.LeadsTo.rest_seek {c d : Cursor} (leads : c.LeadsTo d) :
    (d.seek c.pos).rest = c.rest := by
  rw [Cursor.rest, leads.pos_seek]
  show d.bytes.slice c.pos d.stop = c.bytes.slice c.pos c.stop
  rw [leads.bytes, leads.stop]

namespace Tokenizer

variable {t : Tokenizer Unit σ κ} {c d : Cursor}

theorem ReadsOn.wellFormed_of_stepsAt (readsOn : t.ReadsOn) (steps : t.StepsAt c) :
    c.WellFormed := by
  induction steps with
  | front wf _ => exact wf
  | back state _ ih => exact (readsOn () state _ ih).wellFormed_seek ih

namespace IsLocal

variable (isLocal : t.IsLocal) (steps : t.StepsAt c) (steps' : t.StepsAt d)
include isLocal steps

theorem leads (state : σ) : c.LeadsTo (t.step () state c).cursor :=
  isLocal.readsOn () state c (isLocal.readsOn.wellFormed_of_stepsAt steps)

include steps'

theorem classifyActive (rest : d.rest = c.rest) (state : σ) :
    (t.classifyActive () state c).Alike c.pos d.pos (t.classifyActive () state d) := by
  have active := isLocal.alike state c d steps steps' rest
  have leads := isLocal.leads steps state
  have leads' := isLocal.leads steps' state
  have memory (transition : Transition Unit σ κ) : transition.memory = () := rfl
  simp only [Tokenizer.classifyActive, active.kind, memory]
  split
  · exact active
  · split
    · exact ⟨rfl, active.state, 0, leads.pos_seek, leads'.pos_seek⟩
    · rename_i fallback _
      -- Both have been taken back, and have the same to read again.
      have rest' := leads'.rest_seek.trans (rest.trans leads.rest_seek.symm)
      have fallen := isLocal.alike fallback _ _ (.back state steps) (.back state steps') rest'
      rw [leads.pos_seek, leads'.pos_seek] at fallen
      exact fallen

/-- A run depends on the rest of the line only, as the steps do that are tried for it. -/
theorem classify (rest : d.rest = c.rest) (state : σ) :
    (t.classify () state c).Alike c.pos d.pos (t.classify () state d) := by
  unfold Tokenizer.classify
  split
  · exact isLocal.classifyActive steps steps' rest state
  · rename_i space _
    have spaced := isLocal.alike space c d steps steps' rest
    have leads := isLocal.leads steps space
    have leads' := isLocal.leads steps' space
    obtain ⟨n, advance, advance'⟩ := spaced.advance
    have moves : (d.pos < (t.step () space d).cursor.pos) =
        (c.pos < (t.step () space c).cursor.pos) := by
      rw [advance, advance']
      simp only [Nat.lt_add_right_iff_pos]
    simp only [spaced.kind, moves]
    split
    · exact ⟨rfl, rfl, n, advance, advance'⟩
    · have rest' := leads'.rest_seek.trans (rest.trans leads.rest_seek.symm)
      have active := isLocal.classifyActive (.back space steps) (.back space steps') rest' state
      rw [leads.pos_seek, leads'.pos_seek] at active
      exact active

end IsLocal

end Tokenizer

/-! ## Items further on -/

def Lexeme.moved (offset lines : Nat) (lexeme : Lexeme κ) : Lexeme κ :=
  { lexeme with
    start := offset + lexeme.start
    stop := offset + lexeme.stop
    line := lines + lexeme.line }

def LexError.moved (offset lines : Nat) (e : LexError σ) : LexError σ :=
  { e with offset := offset + e.offset, line := lines + e.line }

/-- The item so many bytes and lines further on. -/
def LexItem.moved (offset lines : Nat) : LexItem σ κ → LexItem σ κ
  | .ok lexeme => .ok (lexeme.moved offset lines)
  | .error e => .error (e.moved offset lines)

namespace Lexer

variable {t : Tokenizer Unit σ κ} {part whole : Lexer Unit σ κ}
  {before input behind : Bytes} {p : Nat}

/-! ## Lexers further on -/

/-- The lexer if it did emit newlines. -/
def emitting (l : Lexer μ σ κ) : Lexer μ σ κ :=
  { l with options := { l.options with emitNewlines := true } }

/-- A lexer in a line of a part of the input, and one of the whole at the same place. If more
stands behind the part, the line ends in the part. -/
structure Tracks (t : Tokenizer Unit σ κ) (before input behind : Bytes) (p : Nat)
    (part whole : Lexer Unit σ κ) : Prop where
  here : InLine t input p part.emitting
  ended : behind = [] ∨ part.cursor.stop < part.nextLine
  tokenizer : whole.tokenizer = t
  options : whole.options = part.options
  state : whole.state = part.state
  bytes : whole.cursor.bytes = before ++ input ++ behind
  pos : whole.cursor.pos = before.length + p
  stop : whole.cursor.stop = before.length + part.cursor.stop
  line : whole.line = before.count Byte.lf + part.line
  nextLine : whole.nextLine = before.length + part.nextLine
  terminator : whole.terminator =
    part.terminator.map fun bounds => (before.length + bounds.1, before.length + bounds.2)
  pending : whole.finished = false

/-- The lexer of the whole has come to the end with that of the part, or tracks it. -/
def InStep (t : Tokenizer Unit σ κ) (before input behind : Bytes)
    (part whole : Lexer Unit σ κ) : Prop :=
  (part.finished = true ∧ whole.finished = true) ∨ ∃ p, Tracks t before input behind p part whole

/-- What one step comes to, given the item of the part: the whole still tracks the part, both
have come to an error, or the part is over and the whole at the front of what is behind. -/
inductive Proceeds (t : Tokenizer Unit σ κ) (before input behind : Bytes) :
    Option (LexItem σ κ) → Lexer Unit σ κ → Lexer Unit σ κ → Prop
  | inside (lexeme : Option (Lexeme κ)) {p : Nat} {part whole : Lexer Unit σ κ} :
      Tracks t before input behind p part whole →
        Proceeds t before input behind (lexeme.map .ok) part whole
  | failed {e : LexError σ} {part whole : Lexer Unit σ κ} :
      part.finished = true → whole.finished = true →
        Proceeds t before input behind (some (.error e)) part whole
  | past (lexeme : Option (Lexeme κ)) {part whole : Lexer Unit σ κ} :
      part.finished = true →
        InStep t (before ++ input) behind [] (start t () part.options behind) whole →
          Proceeds t before input behind (lexeme.map .ok) part whole

/-! ## Runs -/

theorem Tracks.wellFormed_beginToken (tracks : Tracks t before input behind p part whole) :
    whole.cursor.beginToken.WellFormed := by
  have line := tracks.here.line
  have bound : part.cursor.stop ≤ input.length := Nat.le_trans line.le_next line.next_le
  refine ⟨Nat.le_refl _, ?_, ?_⟩
  · show whole.cursor.pos ≤ whole.cursor.stop
    rw [tracks.pos, tracks.stop]
    exact Nat.add_le_add_left line.start_le _
  · show whole.cursor.stop ≤ whole.cursor.bytes.length
    rw [tracks.stop, tracks.bytes, List.length_append, List.length_append]
    omega

theorem Tracks.rest (tracks : Tracks t before input behind p part whole) :
    whole.cursor.rest = part.cursor.rest := by
  have line := tracks.here.line
  have bytes : part.cursor.bytes = input := tracks.here.bytes
  have pos : part.cursor.pos = p := tracks.here.pos
  rw [Cursor.rest, Cursor.rest, tracks.bytes, tracks.pos, tracks.stop, bytes, pos]
  exact Bytes.slice_append_append before behind (Nat.le_trans line.le_next line.next_le)

/-- Behind a run in the line, the whole still tracks the part. -/
theorem Tracks.readOn {cursor cursor' : Cursor} {n : Nat}
    (tracks : Tracks t before input behind p part whole)
    (leads : part.cursor.beginToken.LeadsTo cursor)
    (leads' : whole.cursor.beginToken.LeadsTo cursor') (advance : cursor.pos = p + n)
    (advance' : cursor'.pos = before.length + p + n) (state : σ) :
    Tracks t before input behind cursor.pos { part with memory := (), state, cursor }
      { whole with memory := (), state, cursor := cursor' } := by
  have stop : cursor.stop = part.cursor.stop := leads.stop
  have stop' : cursor'.stop = whole.cursor.stop := leads'.stop
  constructor
  case here => exact tracks.here.readOn leads () state
  case ended => exact stop ▸ tracks.ended
  case tokenizer => exact tracks.tokenizer
  case options => exact tracks.options
  case state => rfl
  case bytes => exact leads'.bytes.trans tracks.bytes
  case pos => rw [advance, ← Nat.add_assoc]; exact advance'
  case stop => exact stop'.trans (stop ▸ tracks.stop)
  case line => exact tracks.line
  case nextLine => exact tracks.nextLine
  case terminator => exact tracks.terminator
  case pending => exact tracks.pending

/-- At its next run, the whole classifies what the part does. -/
theorem Tracks.classify (isLocal : t.IsLocal)
    (tracks : Tracks t before input behind p part whole) :
    let first := part.tokenizer.classify part.memory part.state part.cursor.beginToken
    let second := whole.tokenizer.classify whole.memory whole.state whole.cursor.beginToken
    first.Alike p (before.length + p) second ∧
      Tracks t before input behind first.cursor.pos
        { part with memory := first.memory, state := first.state, cursor := first.cursor }
        { whole with memory := second.memory, state := second.state, cursor := second.cursor } := by
  have tokenizer : part.tokenizer = t := tracks.here.tokenizer
  have pos : part.cursor.beginToken.pos = p := tracks.here.pos
  have pos' : whole.cursor.beginToken.pos = before.length + p := tracks.pos
  have wf : part.cursor.beginToken.WellFormed := tracks.here.wellFormed_beginToken
  have wf' := tracks.wellFormed_beginToken
  have alike := isLocal.classify (.front wf rfl) (.front wf' rfl) tracks.rest part.state
  have leads := isLocal.readsOn.classify wf part.memory part.state
  have leads' := isLocal.readsOn.classify wf' whole.memory whole.state
  rw [pos, pos'] at alike
  rw [← tokenizer] at leads
  rw [← tracks.tokenizer] at leads'
  intro first second
  have same : first.Alike p (before.length + p) second := by
    simpa only [first, second, tokenizer, tracks.tokenizer, tracks.state] using alike
  obtain ⟨n, advance, advance'⟩ := same.advance
  refine ⟨same, ?_⟩
  rw [same.state]
  exact tracks.readOn leads leads' advance advance' first.state

theorem Tracks.readRun [DecidableEq σ] (isLocal : t.IsLocal)
    (tracks : Tracks t before input behind p part whole) (left : p < part.cursor.stop) :
    whole.readRun.1 =
        part.readRun.1.map (LexItem.moved before.length (before.count Byte.lf)) ∧
      Proceeds t before input behind part.readRun.1 part.readRun.2 whole.readRun.2 := by
  have pos : part.cursor.beginToken.pos = p := tracks.here.pos
  have pos' : whole.cursor.beginToken.pos = before.length + p := tracks.pos
  obtain ⟨alike, there⟩ := tracks.classify isLocal
  simp only [Lexer.readRun, pos, pos'] at alike there ⊢
  generalize part.tokenizer.classify part.memory part.state part.cursor.beginToken = first
    at alike there ⊢
  generalize whole.tokenizer.classify whole.memory whole.state whole.cursor.beginToken = second
    at alike there ⊢
  obtain ⟨kind, state, n, advance, advance'⟩ := alike
  have moves : (before.length + p < second.cursor.pos) = (p < first.cursor.pos) := by
    rw [advance, advance']
    simp only [Nat.lt_add_right_iff_pos]
  have stalls : (second.state = whole.state) = (first.state = part.state) := by
    rw [state, tracks.state]
  simp only [kind, moves, stalls]
  cases first.kind with
  | none =>
    refine ⟨?_, .failed rfl rfl⟩
    -- The byte that nobody takes is in the line, so it is the same in both inputs.
    have bytes : second.cursor.bytes = before ++ input ++ behind := there.bytes
    have bytes' : first.cursor.bytes = input := there.here.bytes
    have line := tracks.here.line
    have bound : p < input.length :=
      Nat.lt_of_lt_of_le left (Nat.le_trans line.le_next line.next_le)
    have byte : second.cursor.bytes[before.length + p]? = first.cursor.bytes[p]? := by
      rw [bytes, bytes', Bytes.getElem?_append_append before behind bound]
    simp only [Lexer.input, byte, state, tracks.line]
    rfl
  | some kind =>
    by_cases moved : p < first.cursor.pos
    · simp only [if_pos moved]
      refine ⟨?_, .inside (some _) there⟩
      rw [tracks.line, advance, advance', Nat.add_assoc]
      rfl
    · simp only [if_neg moved]
      by_cases stalled : first.state = part.state
      · simp only [if_pos stalled]
        refine ⟨?_, .failed rfl rfl⟩
        rw [tracks.line, state]
        rfl
      · simp only [if_neg stalled]
        exact ⟨rfl, .inside none there⟩

/-! ## The ends of lines -/

theorem emitting_closeLine (l : Lexer μ σ κ) : l.emitting.closeLine.2 = l.closeLine.2.emitting := by
  rw [closeLine_snd, closeLine_snd]
  by_cases more : l.nextLine < l.input.length
  · rw [if_pos more, if_pos (show l.emitting.nextLine < l.emitting.input.length from more)]
    rfl
  · rw [if_neg more, if_neg (show ¬ l.emitting.nextLine < l.emitting.input.length from more)]
    rfl

theorem closeLine_of_lt {l : Lexer μ σ κ} (resets : l.options.resetPerLine = true)
    (more : l.nextLine < l.input.length) :
    l.closeLine.2 = { l with state := l.tokenizer.initial l.memory }.openLine l.nextLine := by
  rw [closeLine_snd, if_pos more, if_pos resets]

theorem closeLine_of_le {l : Lexer μ σ κ} (last : l.input.length ≤ l.nextLine) :
    l.closeLine.2 = { l with finished := true, terminator := none } := by
  rw [closeLine_snd, if_neg (Nat.not_lt.mpr last)]

theorem inLine_start (t : Tokenizer μ σ κ) (memory : μ) (options : Options)
    (left : input ≠ []) : InLine t input 0 (start t memory options input).emitting := by
  have same : (start t memory options input).emitting =
      start t memory ⟨true, options.resetPerLine⟩ input := by
    unfold start
    split <;> rfl
  rw [same]
  refine (isAt_start t memory input options.resetPerLine).resolve_right fun ended => left ?_
  exact List.eq_nil_of_length_eq_zero ended.2.symm

theorem cursor_openLine {l : Lexer μ σ κ} {start : Nat} (bound : start ≤ l.input.length) :
    (l.openLine start).cursor =
      ⟨l.input, start, start, (lineBounds l.input start).1, l.cursor.milestone⟩ := by
  have line := isLine_lineBounds bound
  exact moveWindow_of_inside line.start_le (Nat.le_trans line.le_next line.next_le)

/-- Where the part enters a line, the whole enters it too. -/
theorem tracks_openLine {start : Nat} (here : InLine t input start (part.openLine start).emitting)
    (held : behind = [] ∨ Byte.lf ∈ input.drop start) (tokenizer : whole.tokenizer = t)
    (options : whole.options = part.options) (state : whole.state = part.state)
    (bytes : whole.input = before ++ input ++ behind)
    (line : whole.line = before.count Byte.lf + part.line) (pending : whole.finished = false) :
    Tracks t before input behind start (part.openLine start)
      (whole.openLine (before.length + start)) := by
  obtain rfl : part.input = input := here.bytes
  have bound : start ≤ part.input.length :=
    Nat.le_trans here.line.start_le (Nat.le_trans here.line.le_next here.line.next_le)
  have bound' : before.length + start ≤ whole.input.length := by
    rw [bytes, List.length_append, List.length_append]
    omega
  have cursor := cursor_openLine bound
  have cursor' := cursor_openLine bound'
  have bounds := lineBounds_append before bound held
  rw [← bytes] at bounds
  constructor
  case here => exact here
  case ended =>
    rw [cursor]
    exact held.imp_right lineBounds_lt
  case tokenizer => exact tokenizer
  case options => exact options
  case state => exact state
  case bytes => exact bytes
  case pos => rw [cursor']
  case stop => rw [cursor, cursor', bounds]
  case line => exact congrArg (· + 1) line
  case nextLine => exact congrArg Prod.snd bounds
  case terminator =>
    simp only [openLine, bounds, Nat.add_lt_add_iff_left]
    split <;> rfl
  case pending => exact pending

/-- Where the part begins, the whole enters the line with which a lexer of the part starts. -/
theorem tracks_start {options : Options} (left : input ≠ [])
    (held : behind = [] ∨ Byte.lf ∈ input) (tokenizer : whole.tokenizer = t)
    (same : whole.options = options) (state : whole.state = t.initial ())
    (bytes : whole.input = before ++ input ++ behind) (line : whole.line = before.count Byte.lf)
    (pending : whole.finished = false) :
    Tracks t before input behind 0 (start t () options input) (whole.openLine before.length) := by
  have here := inLine_start t () options left
  have more : input.isEmpty = false := by simpa using left
  unfold start at here ⊢
  simp only [more, Bool.false_eq_true, if_false] at here ⊢
  exact tracks_openLine here held tokenizer same state bytes line pending

/-- The terminator of a line is yielded by both, if by one. -/
theorem Tracks.closeLine_fst (tracks : Tracks t before input behind p part whole) :
    ∃ lexeme : Option (Lexeme κ), part.closeLine.1 = lexeme.map .ok ∧
      whole.closeLine.1 =
        part.closeLine.1.map (LexItem.moved before.length (before.count Byte.lf)) := by
  have tokenizer : part.tokenizer = t := tracks.here.tokenizer
  have memory (l : Lexer Unit σ κ) : l.memory = () := rfl
  simp only [Lexer.closeLine, tracks.options, tracks.terminator, tracks.tokenizer, tokenizer,
    tracks.line, memory]
  cases part.options.emitNewlines with
  | false => exact ⟨none, rfl, rfl⟩
  | true =>
    cases part.terminator with
    | none => exact ⟨none, rfl, rfl⟩
    | some bounds =>
      cases t.newline () with
      | none => exact ⟨none, rfl, rfl⟩
      | some kind => exact ⟨some _, rfl, rfl⟩

/-- On its last line the part has counted all of its line feeds. -/
theorem Tracks.line_eq_count (tracks : Tracks t before input behind p part whole)
    (used : part.cursor.stop = p) (last : part.nextLine = input.length) (more : behind ≠ []) :
    part.line = input.count Byte.lf := by
  have here := tracks.here
  have ended : p < part.nextLine := used ▸ tracks.ended.resolve_left more
  obtain ⟨open', _⟩ | terminator := here.line.ends
  · exact absurd ended (Nat.not_lt.mpr (Nat.le_of_eq (open'.trans used)))
  · have number : part.line = input.lineAt p := here.number
    have feed : (input.slice p part.nextLine).count Byte.lf = 1 := used ▸ terminator.count
    have lines : input.lineAt part.nextLine = _ := Bytes.lineAt_eq_add (Nat.le_of_lt ended)
    rw [feed, last, Bytes.lineAt, List.take_length] at lines
    exact number.trans (Nat.add_right_cancel lines).symm

/-- Behind a line that is not the last of the part, both enter the next one. -/
theorem Tracks.closeLine_inside (tracks : Tracks t before input behind p part whole)
    (used : part.cursor.stop = p) (resets : part.options.resetPerLine = true)
    (ends : behind = [] ∨ input.getLast? = some Byte.lf) (more : part.nextLine < input.length) :
    Tracks t before input behind part.nextLine part.closeLine.2 whole.closeLine.2 := by
  have here := tracks.here
  have tokenizer : part.tokenizer = t := here.tokenizer
  have bytes : part.input = input := here.bytes
  have bytes' : whole.input = before ++ input ++ behind := tracks.bytes
  have resets' : whole.options.resetPerLine = true := tracks.options ▸ resets
  have more' : whole.nextLine < whole.input.length := by
    rw [tracks.nextLine, bytes', List.append_assoc, List.length_append, List.length_append]
    omega
  -- The next line ends in the part as well, with the line feed at its end if with no other.
  have held : behind = [] ∨ Byte.lf ∈ input.drop part.nextLine := by
    refine ends.imp_right fun feed => List.mem_of_getLast? ?_
    rw [List.getLast?_drop, if_neg (Nat.not_le.mpr more), feed]
  have next := closeLine_of_lt resets (bytes ▸ more)
  have place := here.isAt_closeLine used
  rw [emitting_closeLine, next] at place
  have inside := place.resolve_right fun ended =>
    Bool.false_ne_true (here.pending.symm.trans ended.1)
  have initial : whole.tokenizer.initial whole.memory = part.tokenizer.initial part.memory := by
    rw [tracks.tokenizer, tokenizer]
  rw [next, closeLine_of_lt resets' more', tracks.nextLine]
  exact tracks_openLine inside held tracks.tokenizer tracks.options initial bytes' tracks.line
    tracks.pending

/-- Behind the last line of the part, the whole is where a lexer starts of what stands there. -/
theorem Tracks.closeLine_past (tracks : Tracks t before input behind p part whole)
    (used : part.cursor.stop = p) (resets : part.options.resetPerLine = true)
    (last : part.nextLine = input.length) :
    InStep t (before ++ input) behind [] (start t () part.options behind) whole.closeLine.2 := by
  have bytes : whole.input = before ++ input ++ behind := tracks.bytes
  have last' : whole.nextLine = (before ++ input).length := by
    rw [tracks.nextLine, last, List.length_append]
  have length : whole.input.length = (before ++ input).length + behind.length := by
    rw [bytes]
    exact List.length_append
  by_cases left : behind = []
  · subst left
    rw [closeLine_of_le (Nat.le_of_eq (length.trans last'.symm))]
    exact .inl ⟨rfl, rfl⟩
  · have more : whole.nextLine < whole.input.length := by
      rw [last', length]
      exact Nat.lt_add_of_pos_right (List.length_pos_iff.mpr left)
    have initial : whole.tokenizer.initial whole.memory = t.initial () := by
      rw [tracks.tokenizer]
    have line : whole.line = (before ++ input).count Byte.lf := by
      rw [List.count_append, ← tracks.line_eq_count used last left, tracks.line]
    rw [closeLine_of_lt (tracks.options ▸ resets) more, last']
    exact .inr ⟨0, tracks_start left (.inl rfl) tracks.tokenizer tracks.options initial
      (bytes.trans (List.append_nil _).symm) line tracks.pending⟩

theorem Tracks.closeLine (tracks : Tracks t before input behind p part whole)
    (used : part.cursor.stop = p) (resets : part.options.resetPerLine = true)
    (ends : behind = [] ∨ input.getLast? = some Byte.lf) :
    whole.closeLine.1 =
        part.closeLine.1.map (LexItem.moved before.length (before.count Byte.lf)) ∧
      Proceeds t before input behind part.closeLine.1 part.closeLine.2 whole.closeLine.2 := by
  obtain ⟨lexeme, yields, yields'⟩ := tracks.closeLine_fst
  refine ⟨yields', ?_⟩
  rw [yields]
  rcases Nat.lt_or_eq_of_le tracks.here.line.next_le with more | last
  · exact .inside lexeme (tracks.closeLine_inside used resets ends more)
  · have ended : part.closeLine.2 = { part with finished := true, terminator := none } :=
      closeLine_of_le (Nat.le_of_eq ((congrArg List.length tracks.here.bytes).trans last.symm))
    have inStep := tracks.closeLine_past used resets last
    rw [ended]
    exact .past lexeme rfl inStep

/-! ## Steps -/

/-- One step of the whole yields what one of the part yields, so much further on. -/
theorem Tracks.advance [DecidableEq σ] (isLocal : t.IsLocal)
    (tracks : Tracks t before input behind p part whole)
    (resets : part.options.resetPerLine = true)
    (ends : behind = [] ∨ input.getLast? = some Byte.lf) :
    whole.advance.1 =
        part.advance.1.map (LexItem.moved before.length (before.count Byte.lf)) ∧
      Proceeds t before input behind part.advance.1 part.advance.2 whole.advance.2 := by
  have pending : part.finished = false := tracks.here.pending
  have pos : part.cursor.pos = p := tracks.here.pos
  have inside : p ≤ part.cursor.stop := tracks.here.line.start_le
  have atEnd : whole.cursor.atEnd = part.cursor.atEnd := by
    simp only [Cursor.atEnd, tracks.pos, tracks.stop, pos, Nat.add_le_add_iff_left]
  simp only [Lexer.advance, pending, tracks.pending, atEnd, Bool.false_eq_true, if_false]
  by_cases used : part.cursor.atEnd = true
  · rw [if_pos used, if_pos used]
    have stop : part.cursor.stop = p := Nat.le_antisymm (pos ▸ of_decide_eq_true used) inside
    exact tracks.closeLine stop resets ends
  · rw [if_neg used, if_neg used]
    have left : p < part.cursor.stop :=
      Nat.lt_of_not_le fun stop => used (decide_eq_true (pos ▸ stop))
    exact tracks.readRun isLocal left

theorem options_advance [DecidableEq σ] (l : Lexer μ σ κ) : l.advance.2.options = l.options := by
  unfold advance
  split
  · rfl
  · split
    · rw [closeLine_snd]
      split <;> rfl
    · unfold readRun
      simp only
      split
      · rfl
      · split
        · rfl
        · split <;> rfl

/-- Any number of steps: the whole yields what the part does, as long as that is not over. When
the part is over, without an error, the whole is in step with a lexer of what is behind. -/
theorem Tracks.items [DecidableEq σ] (isLocal : t.IsLocal)
    (tracks : Tracks t before input behind p part whole)
    (resets : part.options.resetPerLine = true)
    (ends : behind = [] ∨ input.getLast? = some Byte.lf) (steps : Nat) :
    (((part.items steps).2.finished = true ↔ ∃ e, .error e ∈ (part.items steps).1) ∧
        (whole.items steps).1 = (part.items steps).1.map
          (LexItem.moved before.length (before.count Byte.lf)) ∧
        (whole.items steps).2.finished = (part.items steps).2.finished) ∨
      ∃ taken ≤ steps, (part.items taken).2.finished = true ∧
        (∀ e, .error e ∉ (part.items taken).1) ∧
        (whole.items taken).1 = (part.items taken).1.map
          (LexItem.moved before.length (before.count Byte.lf)) ∧
        InStep t (before ++ input) behind [] (start t () part.options behind)
          (whole.items taken).2 := by
  -- The induction is on the steps; both lexers do the first one, and then still keep pace,
  -- are at an error, or are at the end of the part.
  induction steps generalizing p part whole with
  | zero =>
    have pending : part.finished = false := tracks.here.pending
    refine .inl ⟨?_, rfl, tracks.pending.trans pending.symm⟩
    simp [Lexer.items, pending]
  | succ steps ih =>
    have pending : part.finished = false := tracks.here.pending
    have options := options_advance part
    obtain ⟨yields, proceeds⟩ := tracks.advance isLocal resets ends
    have first (n : Nat) := items_succ pending n
    have first' (n : Nat) := items_succ tracks.pending n
    rw [yields] at first'
    generalize part.advance.1 = item, part.advance.2 = next, whole.advance.2 = next'
      at proceeds options first first'
    rw [← options]
    cases proceeds with
    | inside lexeme tracks =>
      obtain ⟨unended, items, finished⟩ | ⟨taken, le, ended, noError, items, inStep⟩ :=
        ih tracks (options ▸ resets)
      · rw [first, first']
        refine .inl ⟨unended.trans ?_, ?_, finished⟩
        · cases lexeme <;> simp
        · rw [items, List.map_append]
          cases lexeme <;> rfl
      · refine .inr ⟨taken + 1, Nat.succ_le_succ le, ?_⟩
        rw [first, first']
        refine ⟨ended, ?_, ?_, inStep⟩
        · cases lexeme <;> simpa using noError
        · rw [items, List.map_append]
          cases lexeme <;> rfl
    | @failed e _ _ finished finished' =>
      rw [first, first', items_of_finished finished, items_of_finished finished']
      exact .inl ⟨iff_of_true finished ⟨e, List.mem_append_left _ List.mem_cons_self⟩, rfl,
        finished'.trans finished.symm⟩
    | past lexeme finished inStep =>
      refine .inr ⟨1, Nat.succ_le_succ (Nat.zero_le _), ?_⟩
      rw [first, first']
      refine ⟨finished, ?_, ?_, inStep⟩
      · cases lexeme <;> simp [Lexer.items]
      · cases lexeme <;> rfl

/-- With nothing behind the part, the whole yields what the part does to the end. -/
theorem InStep.items [DecidableEq σ] (isLocal : t.IsLocal)
    (inStep : InStep t before input [] part whole) (resets : part.options.resetPerLine = true)
    (steps : Nat) :
    (whole.items steps).1 = (part.items steps).1.map
        (LexItem.moved before.length (before.count Byte.lf)) ∧
      (whole.items steps).2.finished = (part.items steps).2.finished := by
  obtain ⟨finished, finished'⟩ | ⟨p, tracks⟩ := inStep
  · rw [items_of_finished finished, items_of_finished finished']
    exact ⟨rfl, finished'.trans finished.symm⟩
  · obtain ⟨_, same⟩ | ⟨taken, le, ended, _, items, inStep⟩ :=
      tracks.items isLocal resets (.inl rfl) steps
    · exact same
    -- A lexer of nothing is finished from the start, and so is the one in step with it.
    · have ended' : (whole.items taken).2.finished = true := by
        obtain ⟨_, ended'⟩ | ⟨_, tracks⟩ := inStep
        · exact ended'
        · cases tracks.here.pending
      rw [items_of_le ended le, items_of_le ended' le]
      exact ⟨items, ended'.trans ended.symm⟩

theorem options_start (t : Tokenizer μ σ κ) (memory : μ) (options : Options) (input : Bytes) :
    (start t memory options input).options = options := by
  unfold start
  split <;> rfl

theorem moved_zero (item : LexItem σ κ) : LexItem.moved 0 0 item = item := by
  cases item <;> simp [LexItem.moved, Lexeme.moved, LexError.moved]

/-- An input that ends in a line feed is lexed with more behind it as it is without. If that
comes to an error, or not to an end, nothing else is yielded; if it does come to an end, what
is behind is lexed as if it were alone, and its items are so many bytes and lines further on. -/
theorem items_append [DecidableEq σ] (isLocal : t.IsLocal) {a : Bytes}
    (ends : a.getLast? = some Byte.lf) (b : Bytes) (emit : Bool) (steps : Nat) :
    let options : Options := ⟨emit, true⟩
    let first := (start t () options a).items steps
    let second := start t () options b
    let both := start t () options (a ++ b)
    (first.2.finished = false →
        (both.items steps).1 = first.1 ∧ (both.items steps).2.finished = false) ∧
      (∀ e, .error e ∈ first.1 →
        (both.items steps).1 = first.1 ∧ (both.items steps).2.finished = true) ∧
      (first.2.finished = true → (∀ e, .error e ∉ first.1) →
        ∃ taken ≤ steps, ∀ more,
          (both.items (taken + more)).1 = first.1 ++ (second.items more).1.map
              (LexItem.moved a.length (a.count Byte.lf)) ∧
            (both.items (taken + more)).2.finished = (second.items more).2.finished) := by
  intro options first second both
  have held : Byte.lf ∈ a := List.mem_of_getLast? ends
  have left : a ≠ [] := List.ne_nil_of_mem held
  have tracks : Tracks t [] a b 0 (start t () options a) both := by
    have more : (a ++ b).isEmpty = false := by simp [left]
    have opened : both = _ := if_neg (by rw [more]; exact Bool.false_ne_true)
    rw [opened]
    exact tracks_start left (.inr held) rfl rfl rfl rfl rfl more
  have resets (input : Bytes) : (start t () options input).options.resetPerLine = true :=
    congrArg Options.resetPerLine (options_start t () options input)
  have alone (n : Nat) : ((start t () options a).items n).1.map (LexItem.moved 0 0) =
      ((start t () options a).items n).1 := by
    rw [List.map_congr_left fun item _ => moved_zero item, List.map_id']
  -- First with nothing in front, up to the end of `a`; then with `a` in front and nothing behind.
  obtain ⟨unended, items, finished⟩ | ⟨taken, le, ended, noError, items, inStep⟩ :=
    tracks.items isLocal (resets a) (.inr ends) steps
  · have same : (both.items steps).1 = first.1 := items.trans (alone steps)
    refine ⟨fun pending => ⟨same, finished.trans pending⟩, fun e failed => ⟨same, ?_⟩,
      fun ended noError => ?_⟩
    · exact finished.trans (unended.mpr ⟨e, failed⟩)
    · obtain ⟨e, failed⟩ := unended.mp ended
      exact absurd failed (noError e)
  · have settled : first = (start t () options a).items taken := items_of_le ended le
    rw [options_start] at inStep
    rw [settled]
    refine ⟨fun pending => absurd ended (Bool.eq_false_iff.mp pending),
      fun e failed => absurd failed (noError e), fun _ _ => ⟨taken, le, fun more => ?_⟩⟩
    obtain ⟨items', finished⟩ := inStep.items isLocal (resets b) more
    rw [items_add, items, items']
    exact ⟨congrArg (· ++ _) (alone taken), finished⟩

theorem isLocal_runTokenizer : runTokenizer.IsLocal where
  readsOn := readsOn_runTokenizer
  alike state c d _ _ rest := by
    simp only [runTokenizer]
    cases takes : Scan.run state.mem c.rest with
    | none =>
      rw [Cursor.take_eq_of_none takes, Cursor.take_eq_of_none (rest ▸ takes)]
      exact ⟨rfl, rfl, 0, rfl, rfl⟩
    | some n =>
      rw [Cursor.take_eq_of_some takes, Cursor.take_eq_of_some (rest ▸ takes)]
      exact ⟨rfl, rfl, n, rfl, rfl⟩

/-- A line that ends in two bytes and an empty one, before a line with a byte that nothing
takes. -/
theorem items_append_runTokenizer :
    let options : Options := ⟨true, true⟩
    let first : List (LexItem RunClass RunClass) :=
      [.ok ⟨.letter, 0, 1, 1⟩, .ok ⟨.newline, 1, 3, 1⟩, .ok ⟨.newline, 3, 4, 2⟩]
    let second := start runTokenizer () options (Bytes.ofText "d!")
    let both := start runTokenizer () options (Bytes.ofText "a\r\n\n" ++ Bytes.ofText "d!")
    (runTokenizer.IsLocal ∧ (Bytes.ofText "a\r\n\n").getLast? = some Byte.lf) ∧
      ∃ taken ≤ 4, ∀ more,
        (both.items (taken + more)).1 = first ++ (second.items more).1.map (LexItem.moved 4 2) ∧
          (both.items (taken + more)).2.finished = (second.items more).2.finished := by
  intro options first second both
  have ends : (Bytes.ofText "a\r\n\n").getLast? = some Byte.lf := rfl
  obtain ⟨_, _, behind⟩ := items_append isLocal_runTokenizer ends (Bytes.ofText "d!") true 4
  refine ⟨⟨isLocal_runTokenizer, ends⟩, behind rfl ?_⟩
  show ∀ e, .error e ∉ first
  simp [first]

end Lexer

end Octets
