import Octets.Glob
import Octets.Proofs.Cursor.Ahead
import Octets.Proofs.Lexer.Tiling

/-!
# Tokens of patterns

Lexing a pattern never fails, and the bound on its steps is enough: the tokens lie one behind
the other up to the end of the pattern. Which token may follow on which is said by a relation
between places, the states of the tokenizer together with what it has seen coming. Plain text
may come anywhere, since it stands for every refusal, and so may a line terminator, which leads
out of every group.

## Main definitions

* `Glob.Lexed`, `Glob.tokens` — a token with its text, and all those of a pattern
* `Glob.Place`, `Place.Sees` — where the tokenizer is, and what it has seen coming
* `Glob.Follows`, `Glob.Path` — which tokens are read at a place, one and one after the other

## Main results

* `Glob.readsOn_tokenizer` — the tokenizer reads on in its window
* `Glob.follows_classify` — what the tokenizer reads at a place
* `Glob.exists_path_tokens` — the tokens of a pattern, with no error and up to its end
-/

namespace Octets.Glob

/-- A token with its text. -/
abbrev Lexed := Token × Bytes

/-- The tokens of a pattern, each with its text. -/
def tokens (pattern : Bytes) : List Lexed :=
  ((lexer {} pattern).items (stepBound pattern)).1.filterMap fun
    | .ok lexeme => some (lexeme.kind, lexeme.bytes pattern)
    | .error _ => none

/-! ## What may follow -/

/-- The text of a byte, with a backslash in front of it or not. -/
def IsByteText (text : Bytes) (b : UInt8) : Prop := text = [b] ∨ text = [Byte.backslash, b]

/-- Where in a pattern the tokenizer is. In front of the dash of a range, it has already looked
at both ends of it. -/
inductive Place where
  | body
  | setFirst
  | setNegated
  | set
  | setDash (low high : UInt8)
  | setRangeEnd (low high : UInt8)
  | alternationFirst
  | alternationName
  | alternationSeparator
  | text

namespace Place

/-- The state of the tokenizer. -/
def state : Place → State
  | body => .body
  | setFirst => .setFirst
  | setNegated => .setNegated
  | set => .set
  | setDash _ _ => .setDash
  | setRangeEnd _ _ => .setRangeEnd
  | alternationFirst => .alternationFirst
  | alternationName => .alternationName
  | alternationSeparator => .alternationSeparator
  | text => .text

/-- What is known of the unread bytes. -/
def Sees (unread : Bytes) : Place → Prop
  | setDash _ high => ∃ rest, unread = Byte.minus :: high :: rest
  | setRangeEnd _ high => ∃ rest, unread = high :: rest
  | _ => True

/-- In a set, where a member may come. -/
def TakesMember : Place → Prop
  | setFirst | setNegated | set => True
  | _ => False

/-- In an alternation, where a name may come. -/
def TakesName : Place → Prop
  | alternationFirst | alternationName => True
  | _ => False

end Place

/-- The token that the tokenizer reads at a place, and the place where it goes on. -/
inductive Follows : Place → Lexed → Place → Prop
  | separator (text : Bytes) : Follows .body (.separator, text) .body
  | anyRun (text : Bytes) : Follows .body (.anyRun, text) .body
  | anyByte (text : Bytes) : Follows .body (.anyByte, text) .body
  | name (text : Bytes) : Follows .body (.name, text) .body
  | setOpen (text : Bytes) : Follows .body (.setOpen, text) .setFirst
  | setNegation (text : Bytes) : Follows .setFirst (.setNegation, text) .setNegated
  | member {place : Place} {text : Bytes} {b : UInt8} :
      place.TakesMember → IsByteText text b → Follows place (.setChar, text) .set
  | rangeStart {place : Place} {low high : UInt8} :
      place.TakesMember → isRange low high = true →
        Follows place (.setChar, [low]) (.setDash low high)
  | setRange (low high : UInt8) (text : Bytes) :
      Follows (.setDash low high) (.setRange, text) (.setRangeEnd low high)
  | rangeEnd (low high : UInt8) : Follows (.setRangeEnd low high) (.setChar, [high]) .set
  | setClose (text : Bytes) : Follows .set (.setClose, text) .body
  | alternationOpen (text : Bytes) : Follows .body (.alternationOpen, text) .alternationFirst
  | alternationName {place : Place} (text : Bytes) :
      place.TakesName → Follows place (.alternationName, text) .alternationSeparator
  | comma (text : Bytes) : Follows .alternationSeparator (.alternationComma, text) .alternationName
  | emptyClose (text : Bytes) : Follows .alternationFirst (.alternationClose, text) .body
  | alternationClose (text : Bytes) : Follows .alternationSeparator (.alternationClose, text) .body
  | newline (place : Place) (text : Bytes) : Follows place (.newline, text) .body
  | text (place : Place) (text : Bytes) : Follows place (.text, text) .text

/-- The tokens read from one place on to another. -/
inductive Path : Place → List Lexed → Place → Prop
  | nil (place : Place) : Path place [] place
  | cons {place next last : Place} {lexed : Lexed} {rest : List Lexed} :
      Follows place lexed next → Path next rest last → Path place (lexed :: rest) last

variable {c d : Cursor} {place next : Place} {token : Token} {scan : Scan}

/-! ## Steps of the tokenizer -/

/-- A move that reads on, and that yields only what may follow. On unread bytes, no token is
empty. -/
def Move.Reads (place : Place) (c : Cursor) (move : Move) : Prop :=
  ∃ n, c.IsAhead move.cursor n ∧ ∀ kind ∈ move.kind, (c.rest ≠ [] → 0 < n) ∧
    ∃ next : Place, next.state = move.state ∧ next.Sees move.cursor.rest ∧
      Follows place (kind, c.rest.take n) next

theorem reads_refuses {s : State} (n : Nat) (ahead : c.IsAhead d n) :
    Move.Reads place c (.refuses s d) :=
  ⟨n, ahead, fun _ refused => nomatch refused⟩

theorem reads_reads {n : Nat} (next : Place) (ahead : c.IsAhead d n) (positive : 0 < n)
    (sees : next.Sees d.rest)
    (follows : Follows place (token, c.rest.take n) next) :
    Move.Reads place c (.reads token next.state d) := by
  refine ⟨n, ahead, fun kind read => ?_⟩
  cases read
  exact ⟨fun _ => positive, next, rfl, sees, follows⟩

/-- A token that is read by one scan. -/
theorem reads_read? (next : Place) (bounded : scan.IsBounded) (takes : scan.TakesBytes)
    (found : c.read? scan = some d) (sees : next.Sees d.rest)
    (follows : ∀ text, Follows place (token, text) next) :
    Move.Reads place c (.reads token next.state d) := by
  obtain ⟨n, ahead, taken⟩ := Cursor.isAhead_of_read? bounded found
  exact reads_reads next ahead (takes _ _ taken) sees (follows _)

theorem reads_mark {b : UInt8} (next : Place) (found : c.read? (mark b) = some d)
    (sees : next.Sees d.rest)
    (follows : ∀ text, Follows place (token, text) next) :
    Move.Reads place c (.reads token next.state d) :=
  reads_read? next (Scan.isBounded_byte _) (Scan.takesBytes_byte _) found sees follows

theorem reads_readBody (c : Cursor) : Move.Reads .body c (readBody c) := by
  unfold readBody
  split
  · exact reads_mark .body ‹_› trivial .separator
  split
  · rename_i star found
    obtain ⟨n, ahead, taken⟩ := Cursor.isAhead_of_read? (Scan.isBounded_byte _) found
    have bounded : (mark Byte.asterisk).IsBounded := Scan.isBounded_byte _
    obtain ⟨m, further⟩ := Cursor.isAhead_accept bounded star
    have positive := Scan.takesBytes_byte _ _ _ taken
    exact reads_reads .body (ahead.trans further) (Nat.add_pos_left positive m) trivial (.anyRun _)
  split
  · exact reads_mark .body ‹_› trivial .anyByte
  split
  · exact reads_mark .alternationFirst ‹_› trivial .alternationOpen
  split
  · exact reads_mark .setFirst ‹_› trivial .setOpen
  split
  · exact reads_read? .body (Scan.isBounded_upToUnescaped _) (Scan.takesBytes_nonzero _) ‹_›
      trivial .name
  · exact reads_refuses 0 (.refl c)

/-- A member without a backslash may begin a range, if the unread bytes go on like one. -/
theorem follows_afterMember (member : place.TakesMember) (b : UInt8) (unread : Bytes) :
    ∃ next : Place, next.state = afterMember false b unread ∧ next.Sees unread ∧
      Follows place (.setChar, [b]) next := by
  unfold afterMember
  split
  · rename_i dash high rest
    split
    · rename_i range
      obtain ⟨rfl, _, range⟩ := range
      exact ⟨.setDash b high, rfl, ⟨rest, rfl⟩, .rangeStart member range⟩
    · exact ⟨.set, rfl, trivial, .member member (.inl rfl)⟩
  · exact ⟨.set, rfl, trivial, .member member (.inl rfl)⟩

theorem afterMember_of_escaped (b : UInt8) (unread : Bytes) : afterMember true b unread = .set := by
  unfold afterMember
  split <;> simp

theorem reads_readMember {s : State} (member : place.TakesMember) :
    Move.Reads place c (readMember s c) := by
  unfold readMember Cursor.accept
  cases escape : c.read? (mark Byte.backslash) with
  | none =>
    simp only
    cases found : c.next with
    | none => exact reads_refuses 0 (.refl c)
    | some taken =>
      obtain ⟨b, d⟩ := taken
      obtain ⟨ahead, text⟩ := Cursor.isAhead_of_next found
      obtain ⟨next, state, sees, follows⟩ := follows_afterMember member b d.rest
      simp only [← state]
      exact reads_reads next ahead Nat.one_pos sees (text ▸ follows)
  | some e =>
    obtain ⟨n, ahead, taken⟩ := Cursor.isAhead_of_read? (Scan.isBounded_byte _) escape
    obtain ⟨rfl, backslash, rest, unread, isBackslash⟩ := Scan.byte_eq_some taken
    simp only [afterMember_of_escaped]
    cases found : e.next with
    | none => exact reads_refuses 1 ahead
    | some taken =>
      obtain ⟨b, d⟩ := taken
      obtain ⟨further, text⟩ := Cursor.isAhead_of_next found
      refine reads_reads .set (ahead.trans further) (by decide) trivial
        (.member (b := b) member (.inr ?_))
      rw [ahead.2, Cursor.rest_advance, unread, List.drop_succ_cons, List.drop_zero] at text
      rw [unread, List.take_succ_cons, text, beq_iff_eq.mp isBackslash]

theorem reads_readName {s : State} (name : place.TakesName) :
    Move.Reads place c (readName s c) := by
  unfold readName
  split
  · exact reads_refuses 0 (.refl c)
  · exact reads_read? .alternationSeparator (Scan.isBounded_upToUnescaped _)
      (Scan.takesBytes_nonzero _) ‹_› trivial fun text => .alternationName text name

/-- What one step of the tokenizer reads may follow, and no step goes back. -/
theorem reads_readToken (place : Place) (wf : c.WellFormed) (sees : place.Sees c.rest) :
    Move.Reads place c (readToken place.state c) := by
  cases place with
  | body => exact reads_readBody c
  | setFirst =>
    simp only [readToken, Place.state]
    split
    · exact reads_refuses 0 (.refl c)
    split
    · exact reads_read? .setNegated (Scan.isBounded_byte _) (Scan.takesBytes_byte _) ‹_›
        trivial .setNegation
    · exact reads_readMember trivial
  | setNegated =>
    simp only [readToken, Place.state]
    split
    · exact reads_refuses 0 (.refl c)
    · exact reads_readMember trivial
  | set =>
    simp only [readToken, Place.state]
    split
    · exact reads_mark .body ‹_› trivial .setClose
    · exact reads_readMember trivial
  | setDash low high =>
    obtain ⟨rest, unread⟩ := sees
    simp only [readToken, Place.state]
    split
    · rename_i found
      obtain ⟨n, ahead, taken⟩ := Cursor.isAhead_of_read? (Scan.isBounded_byte _) found
      obtain ⟨rfl, _⟩ := Scan.byte_eq_some taken
      refine reads_reads (.setRangeEnd low high) ahead Nat.one_pos ⟨rest, ?_⟩
        (.setRange low high _)
      rw [ahead.2, Cursor.rest_advance, unread, List.drop_succ_cons, List.drop_zero]
    · exact reads_refuses 0 (.refl c)
  | setRangeEnd low high =>
    obtain ⟨rest, unread⟩ := sees
    simp only [readToken, Place.state]
    split
    · exact reads_refuses 0 (.refl c)
    · obtain ⟨ahead, _⟩ := Cursor.isAhead_of_next ‹_›
      refine reads_reads .set ahead Nat.one_pos trivial ?_
      rw [unread]
      exact .rangeEnd low high
  | alternationFirst =>
    simp only [readToken, Place.state]
    split
    · exact reads_mark .body ‹_› trivial .emptyClose
    · exact reads_readName trivial
  | alternationName => exact reads_readName trivial
  | alternationSeparator =>
    simp only [readToken, Place.state]
    split
    · exact reads_mark .alternationName ‹_› trivial .comma
    split
    · exact reads_mark .body ‹_› trivial .alternationClose
    · exact reads_refuses 0 (.refl c)
  | text =>
    refine ⟨c.rest.length, Cursor.isAhead_jumpToEnd wf, fun kind read => ?_⟩
    cases read
    exact ⟨List.length_pos_iff.mpr, .text, rfl, trivial, .text _ _⟩

/-- Wherever the tokenizer is, no step of it goes back, and on unread bytes no token is empty. -/
theorem isAhead_readToken (s : State) (wf : c.WellFormed) :
    ∃ n, c.IsAhead (readToken s c).cursor n ∧
      ((readToken s c).kind.isSome = true → c.rest ≠ [] → 0 < n) := by
  have ahead (place : Place) (sees : place.Sees c.rest) :
      ∃ n, c.IsAhead (readToken place.state c).cursor n ∧
        ((readToken place.state c).kind.isSome = true → c.rest ≠ [] → 0 < n) := by
    obtain ⟨n, ahead, reads⟩ := reads_readToken place wf sees
    refine ⟨n, ahead, fun read => ?_⟩
    obtain ⟨kind, read⟩ := Option.isSome_iff_exists.mp read
    exact (reads kind read).1
  cases s with
  | body => exact ahead .body trivial
  | setFirst => exact ahead .setFirst trivial
  | setNegated => exact ahead .setNegated trivial
  | set => exact ahead .set trivial
  -- A state that is kept over the end of a line has not seen what comes.
  | setDash =>
    simp only [readToken]
    split
    · obtain ⟨n, ahead, taken⟩ := Cursor.isAhead_of_read? (Scan.isBounded_byte _) ‹_›
      exact ⟨n, ahead, fun _ _ => Scan.takesBytes_byte _ _ _ taken⟩
    · exact ⟨0, .refl c, fun refused => nomatch refused⟩
  | setRangeEnd =>
    simp only [readToken]
    split
    · exact ⟨0, .refl c, fun refused => nomatch refused⟩
    · exact ⟨1, (Cursor.isAhead_of_next ‹_›).1, fun _ _ => Nat.one_pos⟩
  | alternationFirst => exact ahead .alternationFirst trivial
  | alternationName => exact ahead .alternationName trivial
  | alternationSeparator => exact ahead .alternationSeparator trivial
  | text => exact ahead .text trivial

/-- The tokenizer of patterns reads on in the window that it is given. -/
theorem readsOn_tokenizer : tokenizer.ReadsOn := by
  intro _ s c wf
  obtain ⟨n, ⟨inside, same⟩, _⟩ := isAhead_readToken s wf
  show c.LeadsTo (readToken s c).cursor
  rw [same]
  exact ⟨rfl, rfl, Nat.le_add_right _ _, (wf.advance inside).2.1⟩

theorem classify_eq (s : State) (c : Cursor) :
    tokenizer.classify () s c =
      if (readToken s c).kind.isSome then readToken s c
      else .reads .text .text ((readToken s c).cursor.seek c.pos).jumpToEnd := rfl

/-- On unread bytes, the tokenizer reads a token that may follow. -/
theorem follows_classify (wf : c.WellFormed) (sees : place.Sees c.rest)
    (unread : c.pos < c.stop) :
    let run := tokenizer.classify () place.state c
    ∃ kind next, run.kind = some kind ∧ c.pos < run.cursor.pos ∧ next.state = run.state ∧
      next.Sees run.cursor.rest ∧
        Follows place (kind, c.bytes.slice c.pos run.cursor.pos) next := by
  intro run
  obtain ⟨n, ahead, follows⟩ := reads_readToken place wf sees
  cases read : (readToken place.state c).kind with
  | some kind =>
    have same : run = readToken place.state c := (classify_eq _ c).trans (if_pos (by simp [read]))
    obtain ⟨positive, next, state, sees, follows⟩ := follows kind read
    rw [same, ahead.slice]
    refine ⟨kind, next, read, ?_, state, sees, follows⟩
    rw [ahead.2]
    exact Nat.lt_add_of_pos_right (positive (Cursor.rest_ne_nil wf unread))
  | none =>
    -- What is refused becomes plain text, up to the end of the line.
    have same :
        run = Move.reads .text .text ((readToken place.state c).cursor.seek c.pos).jumpToEnd :=
      (classify_eq _ c).trans (if_neg (by simp [read]))
    rw [same]
    refine ⟨.text, .text, rfl, ?_, rfl, trivial, .text _ _⟩
    show c.pos < (readToken place.state c).cursor.stop
    rw [ahead.2]
    exact unread

/-! ## Steps of the lexer -/

/-- A lexer inside of a pattern, with its tokenizer at some place. -/
structure IsIn (pattern : Bytes) (p : Nat) (place : Place) (l : Lexer Unit State Token) :
    Prop where
  here : Lexer.InLine tokenizer pattern p l
  options : l.options = {}
  state : l.state = place.state
  sees : place.Sees l.cursor.rest

/-- A lexer that has come to a position of a pattern, which may be its end. -/
def HasCome (pattern : Bytes) (p : Nat) (place : Place) (l : Lexer Unit State Token) : Prop :=
  IsIn pattern p place l ∨ (l.finished = true ∧ p = pattern.length)

variable {pattern : Bytes} {p : Nat} {l : Lexer Unit State Token}

/-- What one step of a lexer comes to: a token that may follow, or the end of the pattern. -/
inductive Steps (pattern : Bytes) (p : Nat) (place : Place) :
    Option (LexItem State Token) → Lexer Unit State Token → Prop
  | token {kind : Token} {stop line : Nat} {next : Place} {l : Lexer Unit State Token} :
      p < stop → stop ≤ pattern.length → Follows place (kind, pattern.slice p stop) next →
        HasCome pattern stop next l → Steps pattern p place (some (.ok ⟨kind, p, stop, line⟩)) l
  | finish {l : Lexer Unit State Token} :
      p = pattern.length → l.finished = true → Steps pattern p place none l

theorem steps_readRun (come : IsIn pattern p place l) (unread : p < l.cursor.stop) :
    Steps pattern p place l.readRun.1 l.readRun.2 := by
  obtain ⟨here, options, state, sees⟩ := come
  have wf := here.wellFormed_beginToken
  have start : l.cursor.beginToken.pos = p := here.pos
  have bytes : l.cursor.beginToken.bytes = pattern := here.bytes
  have leads := readsOn_tokenizer.classify wf l.memory l.state
  rw [state] at leads
  -- On unread bytes the tokenizer reads a token that moves on, so the lexer does not complain.
  obtain ⟨kind, next, read, moved, state', sees', follows⟩ :=
    follows_classify wf sees (start ▸ unread)
  rw [start] at moved
  rw [start, bytes] at follows
  simp only [Lexer.readRun, here.tokenizer, state, read, start, if_pos moved]
  have there := here.readOn leads (tokenizer.classify () place.state l.cursor.beginToken).memory
    (tokenizer.classify () place.state l.cursor.beginToken).state
  simp only [here.tokenizer] at there
  exact .token moved (Lexer.IsAt.le_length (.inl there)) follows
    (.inl ⟨there, options, state'.symm, sees'⟩)

theorem steps_closeLine (come : IsIn pattern p place l) (used : l.cursor.stop = p) :
    Steps pattern p place l.closeLine.1 l.closeLine.2 := by
  obtain ⟨here, options, _, _⟩ := come
  have terminator := here.terminator
  have line := here.line
  have behind := here.isAt_closeLine used
  have after := Lexer.closeLine_snd l
  obtain ⟨last, stop⟩ | ends := line.ends
  -- The last line may end without a terminator.
  · rw [if_neg (last ▸ Nat.lt_irrefl _)] at terminator
    have item : l.closeLine.1 = none := by
      simp only [Lexer.closeLine, terminator]
      split <;> simp_all
    rw [item]
    refine .finish (used ▸ stop) ?_
    rw [after, if_neg (by rw [show l.input = pattern from here.bytes]; omega)]
  · rw [if_pos ends.lt] at terminator
    have item : l.closeLine.1 = some (.ok ⟨.newline, p, l.nextLine, l.line⟩) := by
      simp only [Lexer.closeLine, options, terminator, here.tokenizer, used]
      rfl
    rw [item]
    refine .token (used ▸ ends.lt) line.next_le (.newline _ _) ?_
    -- A new line begins in the initial state.
    by_cases more : l.nextLine < l.input.length
    · rw [if_pos more] at after
      obtain there | ⟨finished, _⟩ := behind
      · refine .inl ⟨there, ?_, ?_, trivial⟩
        · rw [after]
          exact options
        · rw [after]
          simp [Lexer.openLine, options, here.tokenizer, tokenizer, Place.state]
      · rw [after] at finished
        exact absurd finished (by simp [Lexer.openLine, here.pending])
    · rw [if_neg more] at after
      rw [show l.input = pattern from here.bytes] at more
      exact .inr ⟨by rw [after], Nat.le_antisymm line.next_le (Nat.not_lt.mp more)⟩

/-- Every step of a lexer yields a token that may follow, until the pattern is used up. -/
theorem steps_advance (come : IsIn pattern p place l) :
    Steps pattern p place l.advance.1 l.advance.2 := by
  have start := come.here.pos
  simp only [Lexer.advance, come.here.pending, Bool.false_eq_true, if_false]
  split
  · rename_i used
    exact steps_closeLine come
      (Nat.le_antisymm (start ▸ of_decide_eq_true used) come.here.line.start_le)
  · rename_i unread
    refine steps_readRun come (Nat.lt_of_not_le fun used => unread ?_)
    exact decide_eq_true (start ▸ used)

/-! ## All tokens -/

/-- What a lexeme is and what its text is. -/
def lexed (pattern : Bytes) (lexeme : Lexeme Token) : Lexed :=
  (lexeme.kind, lexeme.bytes pattern)

/-- From any place that it has come to, a lexer reads the rest of the pattern without an
error. -/
theorem exists_path_items {steps : Nat} (come : HasCome pattern p place l)
    (enough : pattern.length - p < steps) :
    ∃ lexemes last, (l.items steps).1 = lexemes.map .ok ∧
      Lexer.Tiles p lexemes pattern.length ∧ Path place (lexemes.map (lexed pattern)) last ∧
        (l.items steps).2.finished = true := by
  induction steps generalizing p place l with
  | zero => exact absurd enough (Nat.not_lt_zero _)
  | succ steps ih =>
    obtain come | ⟨finished, rfl⟩ := come
    case inr =>
      rw [Lexer.items_of_finished finished]
      exact ⟨[], place, rfl, .nil _, .nil place, finished⟩
    have step := steps_advance come
    rw [Lexer.items_succ come.here.pending]
    generalize l.advance.1 = item, l.advance.2 = next at step ⊢
    cases step with
    | @token kind stop line state next ascend inside follows come =>
      obtain ⟨lexemes, last, items, tiles, path, finished⟩ := ih come (by omega)
      refine ⟨⟨kind, p, stop, line⟩ :: lexemes, last, ?_, .cons rfl ascend tiles,
        .cons follows path, finished⟩
      rw [items]
      rfl
    | finish used finished =>
      rw [Lexer.items_of_finished finished]
      exact ⟨[], place, rfl, used ▸ .nil _, .nil place, finished⟩

theorem hasCome_lexer (pattern : Bytes) : HasCome pattern 0 .body (lexer {} pattern) := by
  obtain here | ended := Lexer.isAt_start tokenizer () pattern true
  · refine .inl ⟨here, ?_, ?_, trivial⟩
    · simp only [lexer, Lexer.start]
      split <;> rfl
    · simp only [lexer, Lexer.start]
      split <;> rfl
  · exact .inr ended

/-- Lexing a pattern never fails and comes to its end. The tokens lie one behind the other,
and each may follow on the one before it. -/
theorem exists_path_tokens (pattern : Bytes) :
    ∃ lexemes last, ((lexer {} pattern).items (stepBound pattern)).1 = lexemes.map .ok ∧
      Lexer.Tiles 0 lexemes pattern.length ∧ tokens pattern = lexemes.map (lexed pattern) ∧
        Path .body (tokens pattern) last := by
  obtain ⟨lexemes, last, items, tiles, path, _⟩ :=
    exists_path_items (hasCome_lexer pattern) (Nat.lt_succ_self pattern.length)
  have same : tokens pattern = lexemes.map (lexed pattern) := by
    simp only [tokens, stepBound, items, List.filterMap_map]
    exact congrFun List.filterMap_eq_map lexemes
  exact ⟨lexemes, last, items, tiles, same, same ▸ path⟩

/-- Together, the texts of the tokens are the pattern. -/
theorem flatMap_tokens (pattern : Bytes) : (tokens pattern).flatMap Prod.snd = pattern := by
  obtain ⟨lexemes, last, _, tiles, same, _⟩ := exists_path_tokens pattern
  rw [same, List.flatMap_map]
  simpa [lexed] using tiles.flatMap_bytes pattern

end Octets.Glob
