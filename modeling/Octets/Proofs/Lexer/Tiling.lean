import Octets.Proofs.Lexer.Lines

/-!
# Lexemes tile the input

Whatever the tokenizer is, as long as its steps read on in the window that they are
given: the lexemes of a lexer lie one behind the other from the front of the input,
none of them empty, up to where the lexer has come. Each lies on the line that it says.
Only the terminators of lines hold line feeds, and a lexer that does not emit them
yields everything else all the same.

Every step leads from a place of the input to a place further on, or to an error
(`advances_advance`). The steps of a lexer that emits newlines and of one that does not
are compared on the way, as they go through the same lines and states.

## Main definitions

* `Cursor.LeadsTo`, `Tokenizer.ReadsOn` — the tokenizers that are spoken of
* `Lexer.Tiles`, `Lexer.IsTiling` — lexemes one behind the other, on their lines
* `Lexer.IsAt` — a lexer that has come to some place of its input

## Main results

* `Tokenizer.ReadsOn.classify` — a run reads on as the steps do
* `Lexer.advances_advance` — what one step does
* `Lexer.isTiling_items` — what any number of steps yield
-/

namespace Octets

variable {μ σ κ : Type}

/-- Whether a lexeme holds a line feed. -/
def Lexeme.endsLine (lexeme : Lexeme κ) (input : Bytes) : Bool :=
  (lexeme.bytes input).contains Byte.lf

/-! ## Tokenizers that read on -/

/-- A cursor that has read on in the same window of the same bytes, or not moved. -/
structure Cursor.LeadsTo (c d : Cursor) : Prop where
  bytes : d.bytes = c.bytes
  stop : d.stop = c.stop
  forward : c.pos ≤ d.pos
  inside : d.pos ≤ d.stop

/-- The steps of a tokenizer never go back, and keep the bytes and the window, inside of
which every cursor stands. -/
def Tokenizer.ReadsOn (t : Tokenizer μ σ κ) : Prop :=
  ∀ memory state (c : Cursor), c.WellFormed → c.LeadsTo (t.step memory state c).cursor

namespace Cursor.LeadsTo

variable {c d e : Cursor}

theorem trans (first : c.LeadsTo d) (second : d.LeadsTo e) : c.LeadsTo e :=
  ⟨second.bytes.trans first.bytes, second.stop.trans first.stop,
    Nat.le_trans first.forward second.forward, second.inside⟩

/-- Back to where it was, a cursor has not moved. -/
theorem pos_seek (leads : c.LeadsTo d) : (d.seek c.pos).pos = c.pos :=
  Nat.min_eq_left (Nat.le_trans leads.forward leads.inside)

theorem seek (leads : c.LeadsTo d) : c.LeadsTo (d.seek c.pos) := by
  refine ⟨leads.bytes, leads.stop, Nat.le_of_eq leads.pos_seek.symm, ?_⟩
  rw [leads.pos_seek]
  exact Nat.le_trans leads.forward leads.inside

theorem wellFormed_seek (leads : c.LeadsTo d) (wf : c.WellFormed) :
    (d.seek c.pos).WellFormed := by
  refine ⟨Nat.min_le_right _ _, Nat.min_le_right _ _, ?_⟩
  show d.stop ≤ d.bytes.length
  rw [leads.stop, leads.bytes]
  exact wf.2.2

end Cursor.LeadsTo

/-- What a scan takes of the unread bytes is in the window. -/
theorem Cursor.leadsTo_take {scan : Scan} {c : Cursor} (wf : c.WellFormed)
    (bounded : ∀ bytes n, scan bytes = some n → n ≤ bytes.length) :
    c.LeadsTo (c.take scan).2 := by
  cases takes : scan c.rest with
  | none =>
    rw [Cursor.take_eq_of_none takes]
    exact ⟨rfl, rfl, Nat.le_refl _, wf.2.1⟩
  | some n =>
    rw [Cursor.take_eq_of_some takes]
    exact ⟨rfl, rfl, Nat.le_add_right _ _, (wf.advance (bounded _ _ takes)).2.1⟩

namespace Tokenizer.ReadsOn

variable {t : Tokenizer μ σ κ} {c : Cursor}

theorem classifyActive (readsOn : t.ReadsOn) (wf : c.WellFormed) (memory : μ) (state : σ) :
    c.LeadsTo (t.classifyActive memory state c).cursor := by
  have active := readsOn memory state c wf
  unfold Tokenizer.classifyActive
  simp only
  split
  · exact active
  · split
    · exact active.seek
    · exact active.seek.trans (readsOn _ _ _ (active.wellFormed_seek wf))

/-- A run reads on as the steps do that are tried for it. -/
theorem classify (readsOn : t.ReadsOn) (wf : c.WellFormed) (memory : μ) (state : σ) :
    c.LeadsTo (t.classify memory state c).cursor := by
  unfold Tokenizer.classify
  split
  · exact readsOn.classifyActive wf memory state
  · rename_i space _
    have spaced := readsOn memory space c wf
    simp only
    split
    · exact spaced
    -- The space state has read on and is taken back before the active one steps.
    · exact spaced.seek.trans (readsOn.classifyActive (spaced.wellFormed_seek wf) _ state)

end Tokenizer.ReadsOn

namespace Lexer

variable {t : Tokenizer μ σ κ} {l : Lexer μ σ κ} {input : Bytes} {p : Nat}

/-! ## Places -/

/-- A lexer in a line of the input, at some place that it has not read beyond. -/
structure InLine (t : Tokenizer μ σ κ) (input : Bytes) (p : Nat) (l : Lexer μ σ κ) : Prop where
  tokenizer : l.tokenizer = t
  emits : l.options.emitNewlines = true
  bytes : l.cursor.bytes = input
  pos : l.cursor.pos = p
  line : IsLine input p l.cursor.stop l.nextLine
  number : l.line = input.lineAt p
  terminator : l.terminator =
    if l.cursor.stop < l.nextLine then some (l.cursor.stop, l.nextLine) else none
  pending : l.finished = false

/-- A lexer that has come to some place of the input without an error. -/
def IsAt (t : Tokenizer μ σ κ) (input : Bytes) (p : Nat) (l : Lexer μ σ κ) : Prop :=
  InLine t input p l ∨ (l.finished = true ∧ p = input.length)

theorem IsAt.le_length (place : IsAt t input p l) : p ≤ input.length := by
  obtain here | ⟨_, rfl⟩ := place
  · exact Nat.le_trans here.line.start_le (Nat.le_trans here.line.le_next here.line.next_le)
  · exact Nat.le_refl _

theorem moveWindow_of_inside {c : Cursor} {start stop : Nat} (ascend : start ≤ stop)
    (inside : stop ≤ c.bytes.length) :
    c.moveWindow start stop = ⟨c.bytes, start, start, stop, c.milestone⟩ := by
  simp only [Cursor.moveWindow, Cursor.within, Nat.min_eq_left inside, Nat.min_eq_left ascend]

theorem inLine_openLine (tokenizer : l.tokenizer = t)
    (emits : l.options.emitNewlines = true) (bytes : l.cursor.bytes = input)
    (pending : l.finished = false) (number : l.line + 1 = input.lineAt p)
    (bound : p ≤ input.length) : InLine t input p (l.openLine p) := by
  subst bytes
  have line := isLine_lineBounds bound
  have window := moveWindow_of_inside line.start_le (Nat.le_trans line.le_next line.next_le)
  constructor
  case tokenizer => exact tokenizer
  case emits => exact emits
  case bytes => rfl
  case pos => exact congrArg Cursor.pos window
  case line => exact (congrArg Cursor.stop window).symm ▸ line
  case number => exact number
  case terminator => rw [show (l.openLine p).cursor.stop = _ from congrArg Cursor.stop window]; rfl
  case pending => exact pending

theorem isAt_start (t : Tokenizer μ σ κ) (memory : μ) (input : Bytes) (reset : Bool) :
    IsAt t input 0 (start t memory ⟨true, reset⟩ input) := by
  unfold start
  cases empty : input.isEmpty with
  | true =>
    obtain rfl := List.isEmpty_iff.mp empty
    exact .inr ⟨rfl, rfl⟩
  | false =>
    refine .inl (inLine_openLine rfl rfl rfl rfl ?_ (Nat.zero_le _))
    simp [Bytes.lineAt]

/-! ## Runs -/

/-- The lexer if it did not emit newlines. -/
def quiet (l : Lexer μ σ κ) : Lexer μ σ κ :=
  { l with options := { l.options with emitNewlines := false } }

/-- What one step from a place of the input comes to: its item, the item of a lexer that
does not emit newlines, and where it leads. -/
inductive Advances (t : Tokenizer μ σ κ) (input : Bytes) (p : Nat) :
    Option (LexItem σ κ) → Option (LexItem σ κ) → Lexer μ σ κ → Prop
  | silent {next : Lexer μ σ κ} : IsAt t input p next → Advances t input p none none next
  | run {kind : κ} {stop : Nat} {next : Lexer μ σ κ} :
      p < stop → Byte.lf ∉ input.slice p stop → IsAt t input stop next →
        Advances t input p (some (.ok ⟨kind, p, stop, input.lineAt p⟩))
          (some (.ok ⟨kind, p, stop, input.lineAt p⟩)) next
  | terminator {kind : κ} {stop : Nat} {memory : μ} {next : Lexer μ σ κ} :
      IsTerminator (input.slice p stop) → t.newline memory = some kind → IsAt t input stop next →
        Advances t input p (some (.ok ⟨kind, p, stop, input.lineAt p⟩)) none next
  | error {fault : LexFault σ} {next : Lexer μ σ κ} :
      next.finished = true →
        Advances t input p (some (.error ⟨fault, p, input.lineAt p⟩))
          (some (.error ⟨fault, p, input.lineAt p⟩)) next

/-- A run leads on in its line. -/
theorem InLine.readOn {cursor : Cursor} (here : InLine t input p l)
    (leads : l.cursor.beginToken.LeadsTo cursor) (memory : μ) (state : σ) :
    InLine t input cursor.pos { l with memory, state, cursor } := by
  have forward : p ≤ cursor.pos := here.pos ▸ leads.forward
  have stop : cursor.stop = l.cursor.stop := leads.stop
  have inside : cursor.pos ≤ l.cursor.stop := stop ▸ leads.inside
  constructor
  case tokenizer => exact here.tokenizer
  case emits => exact here.emits
  case bytes => exact leads.bytes.trans here.bytes
  case pos => rfl
  case line => exact stop ▸ here.line.advance forward inside
  case number =>
    -- There is no line feed between the two places.
    rw [Bytes.lineAt_eq_add forward, List.count_eq_zero.mpr (here.line.not_mem_slice inside)]
    exact here.number
  case terminator => exact stop ▸ here.terminator
  case pending => exact here.pending

theorem InLine.wellFormed_beginToken (here : InLine t input p l) :
    l.cursor.beginToken.WellFormed := by
  have line := here.line
  refine ⟨Nat.le_refl _, ?_, ?_⟩
  · exact here.pos ▸ line.start_le
  · exact here.bytes ▸ Nat.le_trans line.le_next line.next_le

theorem advances_readRun [DecidableEq σ] (readsOn : t.ReadsOn) (here : InLine t input p l) :
    Advances t input p l.readRun.1 l.readRun.1 l.readRun.2 := by
  obtain rfl := here.tokenizer
  have start : l.cursor.beginToken.pos = p := here.pos
  have leads := readsOn.classify here.wellFormed_beginToken l.memory l.state
  -- All that counts about the run is where it leads.
  simp only [readRun, start, here.number]
  generalize l.tokenizer.classify l.memory l.state l.cursor.beginToken = run at leads ⊢
  have there := here.readOn leads run.memory run.state
  rw [here.number] at there
  cases kind : run.kind with
  | none => exact .error rfl
  | some kind =>
    by_cases moved : p < run.cursor.pos
    · simp only [if_pos moved]
      have inside : run.cursor.pos ≤ l.cursor.stop := leads.stop ▸ leads.inside
      exact .run moved (here.line.not_mem_slice inside) (.inl there)
    · simp only [if_neg moved]
      split
      · exact .error rfl
      -- A run of zero bytes that changed the state.
      · have stays : run.cursor.pos = p :=
          Nat.le_antisymm (Nat.not_lt.mp moved) (start ▸ leads.forward)
        exact .silent (.inl (stays ▸ there))

theorem readRun_quiet [DecidableEq σ] (l : Lexer μ σ κ) :
    l.quiet.readRun = (l.readRun.1, l.readRun.2.quiet) := by
  obtain ⟨run, ran⟩ : ∃ run, l.tokenizer.classify l.memory l.state l.cursor.beginToken = run :=
    ⟨_, rfl⟩
  cases kind : run.kind with
  | none => simp only [readRun, quiet, ran, kind, input]
  | some kind =>
    by_cases moved : l.cursor.beginToken.pos < run.cursor.pos
    · simp only [readRun, quiet, ran, kind, if_pos moved]
    · by_cases same : run.state = l.state
      · simp only [readRun, quiet, ran, kind, if_neg moved, if_pos same]
      · simp only [readRun, quiet, ran, kind, if_neg moved, if_neg same]

/-! ## The ends of lines -/

theorem closeLine_snd (l : Lexer μ σ κ) :
    l.closeLine.2 =
      if l.nextLine < l.input.length then
        { l with
            state := if l.options.resetPerLine then l.tokenizer.initial l.memory else l.state }
          |>.openLine l.nextLine
      else { l with finished := true, terminator := none } := by
  unfold closeLine
  simp only
  split <;> rfl

theorem closeLine_quiet (l : Lexer μ σ κ) :
    l.quiet.closeLine = (none, l.closeLine.2.quiet) := by
  by_cases more : l.nextLine < l.input.length
  · rw [closeLine_snd, if_pos more]
    simp only [closeLine]
    rw [if_pos (show l.quiet.nextLine < l.quiet.input.length from more)]
    rfl
  · rw [closeLine_snd, if_neg more]
    simp only [closeLine]
    rw [if_neg (show ¬ l.quiet.nextLine < l.quiet.input.length from more)]
    rfl

/-- Behind a line, a lexer is at the front of the next one, or at the end. -/
theorem InLine.isAt_closeLine (here : InLine t input p l) (used : l.cursor.stop = p) :
    IsAt t input l.nextLine l.closeLine.2 := by
  have line := here.line
  rw [closeLine_snd, show l.input = input from here.bytes]
  by_cases more : l.nextLine < input.length
  · rw [if_pos more]
    refine .inl (inLine_openLine here.tokenizer here.emits here.bytes here.pending ?_
      (Nat.le_of_lt more))
    have ends : IsTerminator (input.slice p l.nextLine) := by
      obtain ⟨last, stop⟩ | ends := line.ends
      · exact absurd more (last.trans stop ▸ Nat.lt_irrefl _)
      · exact used ▸ ends
    rw [Bytes.lineAt_eq_add (used ▸ line.le_next), ends.count]
    exact congrArg (· + 1) here.number
  · rw [if_neg more]
    exact .inr ⟨rfl, Nat.le_antisymm line.next_le (Nat.not_lt.mp more)⟩

theorem advances_closeLine (newline : ∀ memory, (t.newline memory).isSome)
    (here : InLine t input p l) (used : l.cursor.stop = p) :
    Advances t input p l.closeLine.1 none l.closeLine.2 := by
  have behind := here.isAt_closeLine used
  obtain ⟨kind, newline⟩ := Option.isSome_iff_exists.mp (newline l.memory)
  have terminator := here.terminator
  obtain ⟨last, stop⟩ | ends := here.line.ends
  -- The last line may end without a terminator.
  · rw [if_neg (last ▸ Nat.lt_irrefl _)] at terminator
    have item : l.closeLine.1 = none := by
      simp only [closeLine, here.emits, terminator]
    rw [item]
    exact .silent (used ▸ last ▸ behind)
  · rw [if_pos ends.lt] at terminator
    have item : l.closeLine.1 = some (.ok ⟨kind, p, l.nextLine, input.lineAt p⟩) := by
      simp only [closeLine, here.emits, terminator, here.tokenizer, newline, used, here.number]
    rw [item]
    exact .terminator (used ▸ ends) newline behind

/-! ## Steps -/

theorem advances_advance [DecidableEq σ] (readsOn : t.ReadsOn)
    (newline : ∀ memory, (t.newline memory).isSome) (here : InLine t input p l) :
    Advances t input p l.advance.1 l.quiet.advance.1 l.advance.2 := by
  have pending : l.quiet.finished = false := here.pending
  simp only [advance, here.pending, pending]
  by_cases used : l.cursor.atEnd = true
  · rw [if_pos used, if_pos (show l.quiet.cursor.atEnd = true from used)]
    have stop : l.cursor.stop = p :=
      Nat.le_antisymm (here.pos ▸ of_decide_eq_true used) here.line.start_le
    rw [closeLine_quiet]
    exact advances_closeLine newline here stop
  · rw [if_neg used, if_neg (show ¬ l.quiet.cursor.atEnd = true from used), readRun_quiet]
    exact advances_readRun readsOn here

theorem advance_quiet_snd [DecidableEq σ] (l : Lexer μ σ κ) :
    l.quiet.advance.2 = l.advance.2.quiet := by
  unfold advance
  by_cases finished : l.finished = true
  · rw [if_pos finished, if_pos (show l.quiet.finished = true from finished)]
  · rw [if_neg finished, if_neg (show ¬ l.quiet.finished = true from finished)]
    by_cases used : l.cursor.atEnd = true
    · rw [if_pos used, if_pos (show l.quiet.cursor.atEnd = true from used), closeLine_quiet]
    · rw [if_neg used, if_neg (show ¬ l.quiet.cursor.atEnd = true from used), readRun_quiet]

/-! ## Tilings -/

/-- Lexemes one behind the other, none of them empty. -/
inductive Tiles : Nat → List (Lexeme κ) → Nat → Prop
  | nil (p : Nat) : Tiles p [] p
  | cons {p : Nat} {lexeme : Lexeme κ} {lexemes : List (Lexeme κ)} {stop : Nat} :
      lexeme.start = p → lexeme.start < lexeme.stop → Tiles lexeme.stop lexemes stop →
        Tiles p (lexeme :: lexemes) stop

theorem Tiles.le {lexemes : List (Lexeme κ)} {stop : Nat} (tiles : Tiles p lexemes stop) :
    p ≤ stop := by
  induction tiles with
  | nil => exact Nat.le_refl _
  | cons first ascend _ ih => exact Nat.le_trans (first ▸ Nat.le_of_lt ascend) ih

/-- The bytes of lexemes one behind the other are those between their ends. -/
theorem Tiles.flatMap_bytes {lexemes : List (Lexeme κ)} {stop : Nat}
    (tiles : Tiles p lexemes stop) (input : Bytes) :
    input.take p ++ lexemes.flatMap (·.bytes input) = input.take stop := by
  induction tiles with
  | nil => simp
  | cons first ascend _ ih =>
    rw [← first, List.flatMap_cons, ← List.append_assoc, Lexeme.bytes,
      Bytes.take_append_slice (Nat.le_of_lt ascend), ih]

/-- What a lexer yields from one place of the input up to another: lexemes one behind the
other, each on the line that it says, of which only the terminators of lines hold line
feeds; and an error, if it comes to one, at the end of them. -/
structure IsTiling (t : Tokenizer μ σ κ) (input : Bytes) (p : Nat) (lexemes : List (Lexeme κ))
    (error : Option (LexError σ)) (stop : Nat) : Prop where
  tiles : Tiles p lexemes stop
  line : ∀ lexeme ∈ lexemes, lexeme.line = input.lineAt lexeme.start
  newline : ∀ lexeme ∈ lexemes, lexeme.endsLine input = true →
    IsTerminator (lexeme.bytes input) ∧ ∃ memory, t.newline memory = some lexeme.kind
  error : ∀ e ∈ error, e.offset = stop ∧ e.line = input.lineAt stop

section Tiling

variable {lexemes : List (Lexeme κ)} {error : Option (LexError σ)} {stop : Nat}

theorem isTiling_nil (t : Tokenizer μ σ κ) (input : Bytes) (p : Nat) :
    IsTiling t input p [] none p :=
  ⟨.nil p, by simp, by simp, by simp⟩

theorem isTiling_error (t : Tokenizer μ σ κ) (input : Bytes) (p : Nat) (fault : LexFault σ) :
    IsTiling t input p [] (some ⟨fault, p, input.lineAt p⟩) p :=
  ⟨.nil p, by simp, by simp, by simp⟩

theorem IsTiling.cons {kind : κ} {q : Nat} (tiling : IsTiling t input q lexemes error stop)
    (ascend : p < q)
    (newline : Lexeme.endsLine ⟨kind, p, q, input.lineAt p⟩ input = true →
      IsTerminator (input.slice p q) ∧ ∃ memory, t.newline memory = some kind) :
    IsTiling t input p (⟨kind, p, q, input.lineAt p⟩ :: lexemes) error stop :=
  ⟨.cons rfl ascend tiling.tiles, List.forall_mem_cons.mpr ⟨rfl, tiling.line⟩,
    List.forall_mem_cons.mpr ⟨newline, tiling.newline⟩, tiling.error⟩

/-- The items of a lexer that yields these lexemes and then, maybe, an error. -/
def itemsOf (lexemes : List (Lexeme κ)) (error : Option (LexError σ)) : List (LexItem σ κ) :=
  lexemes.map .ok ++ error.toList.map .error

theorem items_succ [DecidableEq σ] (pending : l.finished = false) (steps : Nat) :
    l.items (steps + 1) =
      (l.advance.1.toList ++ (l.advance.2.items steps).1, (l.advance.2.items steps).2) := by
  rw [items, if_neg (by simp [pending])]

end Tiling

/-- From any place that a lexer has come to, its items tile the rest of the input. -/
theorem isTiling_items_of_isAt [DecidableEq σ] (readsOn : t.ReadsOn)
    (newline : ∀ memory, (t.newline memory).isSome) (steps : Nat) (place : IsAt t input p l) :
    ∃ lexemes error stop,
      (l.items steps).1 = itemsOf lexemes error ∧ IsTiling t input p lexemes error stop ∧
        ((l.items steps).2.finished = true → error = none → stop = input.length) ∧
          l.quiet.items steps =
            (itemsOf (lexemes.filter (!·.endsLine input)) error, (l.items steps).2.quiet) := by
  -- The induction is on the steps; the rest begins where the first step has led.
  induction steps generalizing p l with
  | zero =>
    refine ⟨[], none, p, rfl, isTiling_nil t input p, fun finished _ => ?_, rfl⟩
    obtain here | ⟨_, last⟩ := place
    · exact absurd finished (by simp [items, here.pending])
    · exact last
  | succ steps ih =>
    obtain here | ⟨finished, last⟩ := place
    case inr =>
      -- Nothing comes after the end.
      have quiet : l.quiet.finished = true := finished
      rw [items_of_finished finished, items_of_finished quiet]
      exact ⟨[], none, p, rfl, isTiling_nil t input p, fun _ _ => last, rfl⟩
    have advances := advances_advance readsOn newline here
    have quiet : l.quiet.finished = false := here.pending
    rw [items_succ here.pending, items_succ quiet, advance_quiet_snd]
    generalize l.advance.1 = item, l.quiet.advance.1 = quietItem, l.advance.2 = next at advances ⊢
    cases advances with
    | silent place => exact ih place
    | @run kind stop next ascend clean place =>
      obtain ⟨lexemes, error, last, items, tiling, ends, quiet⟩ := ih place
      let lexeme : Lexeme κ := ⟨kind, p, stop, input.lineAt p⟩
      have mute : lexeme.endsLine input = false := by
        simpa [Lexeme.endsLine, Lexeme.bytes] using clean
      refine ⟨lexeme :: lexemes, error, last, ?_, tiling.cons ascend ?_, ends, ?_⟩
      · rw [items]; rfl
      · exact fun feed => absurd (mute.symm.trans feed) Bool.false_ne_true
      · rw [quiet, List.filter_cons_of_pos (by simp [mute])]; rfl
    | @terminator kind stop memory next ends named place =>
      obtain ⟨lexemes, error, last, items, tiling, finish, quiet⟩ := ih place
      let lexeme : Lexeme κ := ⟨kind, p, stop, input.lineAt p⟩
      have feed : lexeme.endsLine input = true := by
        simpa [Lexeme.endsLine, Lexeme.bytes] using
          List.count_pos_iff.mp (ends.count ▸ Nat.one_pos)
      refine ⟨lexeme :: lexemes, error, last, ?_, tiling.cons ends.lt ?_, finish, ?_⟩
      · rw [items]; rfl
      · exact fun _ => ⟨ends, memory, named⟩
      · rw [quiet, List.filter_cons_of_neg (by simp [feed])]; rfl
    | @error fault next finished =>
      have quiet : next.quiet.finished = true := finished
      rw [items_of_finished finished, items_of_finished quiet]
      exact ⟨[], _, p, rfl, isTiling_error t input p fault, by simp, rfl⟩

/-- The lexemes of a lexer that emits newlines tile the input from its front. A lexer that
comes to the end of its work without an error has come to the end of the input. One that
does not emit newlines yields the same but for the terminators of lines, after as many
steps. The steps of the tokenizer are asked to read on only from well-formed cursors, as
no others exist. -/
theorem isTiling_items [DecidableEq σ] (readsOn : t.ReadsOn)
    (newline : ∀ memory, (t.newline memory).isSome) (memory : μ) (input : Bytes) (reset : Bool)
    (steps : Nat) :
    ∃ (lexemes : List (Lexeme κ)) (error : Option (LexError σ)) (stop : Nat),
      let emitting := (start t memory ⟨true, reset⟩ input).items steps
      let silent := (start t memory ⟨false, reset⟩ input).items steps
      emitting.1 = itemsOf lexemes error ∧ IsTiling t input 0 lexemes error stop ∧
        lexemes.flatMap (·.bytes input) = input.take stop ∧
          (emitting.2.finished = true → error = none → stop = input.length) ∧
            silent.1 = itemsOf (lexemes.filter (!·.endsLine input)) error ∧
              silent.2.finished = emitting.2.finished := by
  obtain ⟨lexemes, error, stop, items, tiling, ends, quiet⟩ :=
    isTiling_items_of_isAt readsOn newline steps (isAt_start t memory input reset)
  have start_quiet :
      (start t memory ⟨true, reset⟩ input).quiet = start t memory ⟨false, reset⟩ input := by
    unfold start
    split <;> rfl
  rw [start_quiet] at quiet
  refine ⟨lexemes, error, stop, items, tiling, ?_, ends, congrArg Prod.fst quiet, ?_⟩
  · exact tiling.tiles.flatMap_bytes input
  · exact congrArg (·.2.finished) quiet

/-! ## Runs of three classes -/

/-- Blanks, letters and digits, and the ends of lines. -/
inductive RunClass where
  | blank
  | letter
  | digit
  | newline
  deriving DecidableEq, Repr

def RunClass.mem : RunClass → UInt8 → Bool
  | blank, b => b == Byte.space
  | letter, b => 0x61 ≤ b && b ≤ 0x7A
  | digit, b => 0x30 ≤ b && b ≤ 0x39
  | newline, b => b == Byte.lf

/-- Letters, or else digits, with blanks tried first. -/
def runTokenizer : Tokenizer Unit RunClass RunClass where
  initial _ := .letter
  space _ := some .blank
  fallback _ := some .digit
  newline _ := some .newline
  step _ state c :=
    let (taken, cursor) := c.take (Scan.run state.mem)
    ⟨taken.map fun _ => state, (), state, cursor⟩

theorem readsOn_runTokenizer : runTokenizer.ReadsOn := fun _ _ _ wf =>
  Cursor.leadsTo_take wf fun _ _ taken =>
    (Scan.run_eq_some.mp taken).1 ▸ (List.takeWhile_prefix _).length_le

/-- A terminator of two bytes, an empty line and a byte that nothing takes. -/
theorem isTiling_items_runTokenizer :
    ∃ lexemes error stop,
      itemsOf lexemes error =
          [.ok ⟨.letter, 0, 2, 1⟩, .ok ⟨.blank, 2, 3, 1⟩, .ok ⟨.digit, 3, 4, 1⟩,
            .ok ⟨.newline, 4, 6, 1⟩, .ok ⟨.newline, 6, 7, 2⟩, .ok ⟨.letter, 7, 8, 3⟩,
            .error ⟨.unexpected .digit 0x21, 8, 3⟩] ∧
        IsTiling runTokenizer (Bytes.ofText "ab 1\r\n\nc!") 0 lexemes error stop := by
  obtain ⟨lexemes, error, stop, items, tiling, _⟩ :=
    isTiling_items readsOn_runTokenizer (fun _ => rfl) () (Bytes.ofText "ab 1\r\n\nc!") true 9
  exact ⟨lexemes, error, stop, items.symm.trans rfl, tiling⟩

end Lexer

end Octets
