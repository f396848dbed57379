import Mathlib.Data.Nat.SuccPred
import Mathlib.Order.SuccPred.Relation
import Mathlib.SetTheory.Cardinal.NatCard
import Octets.Lexer.Rules
import Octets.Proofs.Lexer.Independence

/-!
# Lexers that end

A run of zero bytes is no lexeme. If it leaves the state as it was, the lexer stops with an
error; if it hands over to another state, the lexer goes on at the same place. A tokenizer
without a memory whose steps look at the rest of the line only has nothing else to go by than
the state, and so, if there are finitely many states, either the lexer gets on from every place
after at most as many runs as there are states, or the state that is active comes back, and
then it will come back forever.

So such a lexer ends unless it comes to a state that *circles*, and whether it does is all that
counts. That a state hands over to others is not enough, nor does a state circle for itself
without handing over.

## Main definitions

* `Tokenizer.HandsOver` — a run of zero bytes that changes the state
* `Lexer.Circles` — the active state comes back by such runs

## Main results

* `Lexer.InLine.advance_cases` — what one step comes to
* `Lexer.Circles.items` — a lexer that circles never yields anything again
* `Lexer.finished_of_not_circles` — any other one ends, within a number of steps
* `Lexer.ends_unless_circles` — both, for lexers at the start
-/

namespace Octets

variable {σ κ : Type}

/-! ## Handing over -/

/-- At a cursor, a run in one state reads no byte and leaves another state. -/
structure Tokenizer.HandsOver (t : Tokenizer Unit σ κ) (c : Cursor) (state next : σ) : Prop where
  kind : (t.classify () state c).kind.isSome = true
  stays : (t.classify () state c).cursor.pos ≤ c.pos
  leaves : (t.classify () state c).state = next
  other : next ≠ state

/-- Whether a state hands over depends on the rest of the line only. -/
theorem Tokenizer.IsLocal.handsOver_congr {t : Tokenizer Unit σ κ} (isLocal : t.IsLocal)
    {c d : Cursor} (steps : t.StepsAt c) (steps' : t.StepsAt d) (rest : d.rest = c.rest)
    {state next : σ} (hands : t.HandsOver c state next) : t.HandsOver d state next := by
  obtain ⟨kind, same, n, advance, advance'⟩ := isLocal.classify steps steps' rest state
  have stays := hands.stays
  exact ⟨kind ▸ hands.kind, by omega, same.trans hands.leaves, hands.other⟩

theorem Tokenizer.IsLocal.transGen_handsOver_congr {t : Tokenizer Unit σ κ} (isLocal : t.IsLocal)
    {c d : Cursor} (steps : t.StepsAt c) (steps' : t.StepsAt d) (rest : d.rest = c.rest)
    {state next : σ} (chain : Relation.TransGen (t.HandsOver c) state next) :
    Relation.TransGen (t.HandsOver d) state next :=
  Relation.TransGen.mono (fun _ _ => isLocal.handsOver_congr steps steps' rest) _ _ chain

/-- Where no byte is read, the next run is at the same place. -/
theorem Cursor.LeadsTo.beginToken_of_stays {c d : Cursor} (leads : c.LeadsTo d)
    (stays : d.pos ≤ c.pos) (wf : c.WellFormed) :
    d.pos = c.pos ∧ d.beginToken.rest = c.rest ∧ d.beginToken.WellFormed := by
  have pos : d.pos = c.pos := Nat.le_antisymm stays leads.forward
  refine ⟨pos, ?_, Nat.le_refl _, leads.inside, ?_⟩
  · show d.bytes.slice d.pos d.stop = c.bytes.slice c.pos c.stop
    rw [leads.bytes, pos, leads.stop]
  · show d.stop ≤ d.bytes.length
    rw [leads.stop, leads.bytes]
    exact wf.2.2

namespace Lexer

variable {t : Tokenizer Unit σ κ} {l : Lexer Unit σ κ} {input : Bytes} {p : Nat}

/-- There are bytes left in the line, and by runs of zero bytes the active state comes back. -/
structure Circles (l : Lexer Unit σ κ) : Prop where
  pending : l.finished = false
  left : l.cursor.atEnd = false
  comesBack : Relation.TransGen (l.tokenizer.HandsOver l.cursor.beginToken) l.state l.state

variable [DecidableEq σ]

/-! ## Lexers that circle -/

/-- A run of zero bytes yields nothing and leaves the lexer where it is, in another state. -/
theorem advance_of_handsOver {next : σ} (pending : l.finished = false)
    (left : l.cursor.atEnd = false)
    (hands : l.tokenizer.HandsOver l.cursor.beginToken l.state next) :
    l.advance = (none, { l with
      memory := ()
      state := next
      cursor := (l.tokenizer.classify () l.state l.cursor.beginToken).cursor }) := by
  obtain ⟨kind, stays, leaves, other⟩ := hands
  obtain ⟨kind, named⟩ := Option.isSome_iff_exists.mp kind
  have memory : l.memory = () := rfl
  simp only [advance, pending, left, readRun, memory, named, leaves, Bool.false_eq_true, if_false,
    if_neg (Nat.not_lt.mpr stays), if_neg other]

theorem Circles.advance (circles : l.Circles) (isLocal : l.tokenizer.IsLocal)
    (wf : l.cursor.beginToken.WellFormed) :
    l.advance.1 = none ∧ l.advance.2.Circles ∧ l.advance.2.tokenizer = l.tokenizer ∧
      l.advance.2.cursor.beginToken.WellFormed := by
  obtain ⟨pending, left, comesBack⟩ := circles
  obtain ⟨next, hands, back⟩ := Relation.TransGen.head'_iff.mp comesBack
  have leads := isLocal.readsOn.classify wf () l.state
  obtain ⟨pos, rest, wf'⟩ := leads.beginToken_of_stays hands.stays wf
  rw [advance_of_handsOver pending left hands]
  generalize (l.tokenizer.classify () l.state l.cursor.beginToken).cursor = cursor at *
  refine ⟨rfl, ⟨pending, ?_, ?_⟩, rfl, wf'⟩
  · have atEnd : cursor.atEnd = l.cursor.atEnd := by
      rw [Cursor.atEnd, pos, leads.stop]
      rfl
    exact atEnd.trans left
  -- The next state comes back by way of the one that has just been active.
  · exact isLocal.transGen_handsOver_congr (.front wf rfl) (.front wf' rfl) rest
      (.tail' back hands)

/-- A lexer that circles never yields anything again, and never ends. -/
theorem Circles.items (circles : l.Circles) (isLocal : l.tokenizer.IsLocal)
    (wf : l.cursor.beginToken.WellFormed) (steps : Nat) :
    (l.items steps).1 = [] ∧ (l.items steps).2.finished = false := by
  induction steps generalizing l with
  | zero => exact ⟨rfl, circles.pending⟩
  | succ steps ih =>
    obtain ⟨none, circles', tokenizer, wf'⟩ := circles.advance isLocal wf
    rw [items_succ circles.pending, none]
    exact ih circles' (tokenizer ▸ isLocal) wf'

/-! ## Lexers that get on -/

/-- What a run from a place comes to: the end of the work, a place further on, or another state
at the same place. -/
theorem InLine.readRun_cases (readsOn : t.ReadsOn) (here : InLine t input p l) :
    l.readRun.2.finished = true ∨
      (∃ q, p < q ∧ InLine t input q l.readRun.2) ∨
      t.HandsOver l.cursor.beginToken l.state
        (t.classify () l.state l.cursor.beginToken).state := by
  obtain rfl := here.tokenizer
  have start : l.cursor.beginToken.pos = p := here.pos
  have leads := readsOn.classify here.wellFormed_beginToken () l.state
  have memory : l.memory = () := rfl
  obtain ⟨run, ran⟩ : ∃ run, l.tokenizer.classify () l.state l.cursor.beginToken = run := ⟨_, rfl⟩
  rw [ran] at leads
  have there := here.readOn leads run.memory run.state
  -- The branches of `readRun`: no kind, some bytes, and none in the same state or in another.
  cases kind : run.kind with
  | none =>
    left
    simp only [readRun, memory, ran, kind]
  | some named =>
    by_cases moved : p < run.cursor.pos
    · right; left
      simp only [readRun, memory, ran, kind, start, if_pos moved]
      exact ⟨_, moved, there⟩
    by_cases same : run.state = l.state
    · left
      simp only [readRun, memory, ran, kind, start, if_neg moved, if_pos same]
    · right; right
      exact ⟨ran ▸ kind ▸ rfl, ran ▸ start ▸ Nat.le_of_not_lt moved, rfl, ran ▸ same⟩

/-- What one step from a place comes to: the end of the work, a place further on, or another
state at the same place. -/
theorem InLine.advance_cases (readsOn : t.ReadsOn) (here : InLine t input p l) :
    (l.advance.2.finished = true ∨ ∃ q, p < q ∧ InLine t input q l.advance.2) ∨
      InLine t input p l.advance.2 ∧ l.cursor.atEnd = false ∧
        l.advance.2.cursor.beginToken.rest = l.cursor.beginToken.rest ∧
        t.HandsOver l.cursor.beginToken l.state l.advance.2.state := by
  cases used : l.cursor.atEnd with
  | true =>
    have closes : l.advance = l.closeLine := by
      simp only [Lexer.advance, here.pending, used, Bool.false_eq_true, if_false, if_true]
    have stop : l.cursor.stop = p :=
      Nat.le_antisymm (here.pos ▸ of_decide_eq_true used) here.line.start_le
    rw [closes]
    obtain next | ⟨finished, _⟩ := here.isAt_closeLine stop
    · exact .inl ((here.lt_nextLine_or_finished stop).symm.imp_right fun further =>
        ⟨_, further, next⟩)
    · exact .inl (.inl finished)
  | false =>
    have reads : l.advance = l.readRun := by
      simp only [Lexer.advance, here.pending, used, Bool.false_eq_true, if_false]
    obtain finished | further | hands := here.readRun_cases readsOn
    · exact .inl (.inl (reads ▸ finished))
    · exact .inl (.inr (reads ▸ further))
    · obtain rfl := here.tokenizer
      have wf := here.wellFormed_beginToken
      have leads := readsOn.classify wf () l.state
      obtain ⟨pos, rest, _⟩ := leads.beginToken_of_stays hands.stays wf
      have there := here.readOn leads () (l.tokenizer.classify () l.state l.cursor.beginToken).state
      rw [advance_of_handsOver here.pending used hands]
      exact .inr ⟨pos.trans here.pos ▸ there, rfl, rest, hands⟩

theorem items_succ_snd (l : Lexer Unit σ κ) (steps : Nat) :
    (l.items (steps + 1)).2 = (l.items steps).2.advance.2 := by
  have one (l : Lexer Unit σ κ) : (l.items 1).2 = l.advance.2 := by
    cases ended : l.finished with
    | true => simp only [items_of_finished ended, advance, ended, if_true]
    | false => rw [items_succ ended]; rfl
  rw [items_add, one]

/-- Within any number of steps, a lexer ends or comes to a place further on; or else it has been
handing over from one state to the next at one place. -/
theorem InLine.items_cases (isLocal : t.IsLocal) (here : InLine t input p l) (steps : Nat) :
    (∃ taken ≤ steps, (l.items taken).2.finished = true ∨
      ∃ q, p < q ∧ InLine t input q (l.items taken).2) ∨
    (∀ n ≤ steps, InLine t input p (l.items n).2 ∧
        (l.items n).2.cursor.beginToken.rest = l.cursor.beginToken.rest) ∧
      ∀ n < steps, (l.items n).2.cursor.atEnd = false ∧
        t.HandsOver l.cursor.beginToken (l.items n).2.state (l.items (n + 1)).2.state := by
  induction steps with
  | zero =>
    refine .inr ⟨fun n le => ?_, fun n less => absurd less (Nat.not_lt_zero n)⟩
    obtain rfl := Nat.le_zero.mp le
    exact ⟨here, rfl⟩
  | succ steps ih =>
    obtain ⟨taken, le, further⟩ | ⟨stays, hands⟩ := ih
    · exact .inl ⟨taken, Nat.le_succ_of_le le, further⟩
    -- The last step has led to the same place, and the next one starts from there.
    obtain ⟨there, rest⟩ := stays steps (Nat.le_refl _)
    have next := there.advance_cases isLocal.readsOn
    rw [← items_succ_snd] at next
    obtain further | ⟨there', left, rest', passes⟩ := next
    · exact .inl ⟨steps + 1, Nat.le_refl _, further⟩
    refine .inr ⟨fun n le => ?_, fun n less => ?_⟩
    · obtain less | rfl := Nat.lt_or_eq_of_le le
      · exact stays n (Nat.le_of_lt_succ less)
      · exact ⟨there', rest'.trans rest⟩
    · obtain less | rfl := Nat.lt_or_eq_of_le (Nat.le_of_lt_succ less)
      · exact hands n less
      · exact ⟨left, isLocal.handsOver_congr (.front there.wellFormed_beginToken rfl)
          (.front here.wellFormed_beginToken rfl) rest.symm passes⟩

variable [Finite σ]

/-- There are no more states to hand over to than there are states, so within that number of
steps a lexer gets on, or it comes to one that circles. -/
theorem InLine.getsOn_or_circles (isLocal : t.IsLocal) (here : InLine t input p l) :
    (∃ taken ≤ Nat.card σ, (l.items taken).2.finished = true ∨
      ∃ q, p < q ∧ InLine t input q (l.items taken).2) ∨
    ∃ n, (l.items n).2.Circles := by
  refine (here.items_cases isLocal (Nat.card σ)).imp_right fun ⟨stays, hands⟩ => ?_
  -- Two of the states from the first to the last are the same.
  have crowded : ¬ Function.Injective fun n : Fin (Nat.card σ + 1) => (l.items n).2.state :=
    fun distinct => by simpa using Nat.card_le_card_of_injective _ distinct
  obtain ⟨i, j, less, same⟩ : ∃ i j : Fin (Nat.card σ + 1), i < j ∧
      (l.items i).2.state = (l.items j).2.state := by
    obtain ⟨i, j, same, other⟩ := Function.not_injective_iff.mp crowded
    obtain less | less := Fin.lt_or_lt_of_ne other
    · exact ⟨i, j, less, same⟩
    · exact ⟨j, i, less, same.symm⟩
  have le := Nat.le_of_lt_succ j.isLt
  obtain ⟨there, rest⟩ := stays i (Nat.le_trans (Nat.le_of_lt less) le)
  have steps := transGen_of_succ_of_lt
    (fun m n => t.HandsOver l.cursor.beginToken (l.items m).2.state (l.items n).2.state)
    (fun m inside => (hands m (Nat.lt_of_lt_of_le (Set.mem_Ico.mp inside).2 le)).2) less
  have chain : Relation.TransGen (t.HandsOver l.cursor.beginToken) (l.items i).2.state
      (l.items j).2.state :=
    Relation.TransGen.lift (fun n => (l.items n).2.state) (fun _ _ hands => hands) _ _ steps
  rw [← same] at chain
  refine ⟨i, there.pending, (hands i (Nat.lt_of_lt_of_le less le)).1, ?_⟩
  rw [there.tokenizer]
  exact isLocal.transGen_handsOver_congr (.front here.wellFormed_beginToken rfl)
    (.front there.wellFormed_beginToken rfl) rest chain

/-- A lexer that never comes to one that circles gets on from every place, and ends. -/
theorem InLine.finished_of_not_circles (isLocal : t.IsLocal) (here : InLine t input p l)
    (never : ∀ n, ¬ (l.items n).2.Circles) :
    (l.items ((input.length - p + 1) * Nat.card σ)).2.finished = true := by
  -- The induction is on the bytes that are left behind the place.
  induction left : input.length - p using Nat.strong_induction_on generalizing p l with
  | _ left' ih =>
    subst left
    obtain ⟨taken, le, finished | ⟨q, less, there⟩⟩ :=
      (here.getsOn_or_circles isLocal).resolve_right fun ⟨n, circles⟩ => never n circles
    · have enough : taken ≤ (input.length - p + 1) * Nat.card σ :=
        Nat.le_trans le (Nat.le_mul_of_pos_left _ (Nat.succ_pos _))
      rw [items_of_le finished enough]
      exact finished
    · have inside := IsAt.le_length (.inl there)
      have fewer : input.length - q < input.length - p := by omega
      have never' (n : Nat) : ¬ ((l.items taken).2.items n).2.Circles := by
        have later := never (taken + n)
        rwa [items_add] at later
      have finished := ih _ fewer there never' rfl
      have joined : (l.items (taken + (input.length - q + 1) * Nat.card σ)).2.finished = true := by
        rw [items_add]
        exact finished
      have enough : taken + (input.length - q + 1) * Nat.card σ ≤
          (input.length - p + 1) * Nat.card σ := calc
        _ ≤ Nat.card σ + (input.length - q + 1) * Nat.card σ := Nat.add_le_add_right le _
        _ = (input.length - q + 1 + 1) * Nat.card σ :=
          (Nat.add_comm _ _).trans (Nat.succ_mul _ _).symm
        _ ≤ _ := Nat.mul_le_mul_right _ (by omega)
      rw [items_of_le joined enough]
      exact joined

/-! ## Lexers that do not emit newlines -/

omit [Finite σ]

theorem items_quiet_snd (l : Lexer Unit σ κ) (steps : Nat) :
    (l.quiet.items steps).2 = (l.items steps).2.quiet := by
  induction steps with
  | zero => rfl
  | succ steps ih => rw [items_succ_snd, items_succ_snd, ih, advance_quiet_snd]

omit [DecidableEq σ] in
theorem start_quiet (t : Tokenizer Unit σ κ) (reset : Bool) (input : Bytes) :
    (start t () ⟨true, reset⟩ input).quiet = start t () ⟨false, reset⟩ input := by
  unfold start
  split <;> rfl

/-- Whether newlines are emitted changes nothing about where a lexer comes to. -/
theorem items_start_snd (t : Tokenizer Unit σ κ) (options : Options) (input : Bytes)
    (steps : Nat) :
    let emitting := start t () ⟨true, options.resetPerLine⟩ input
    ((start t () options input).items steps).2 = (emitting.items steps).2 ∨
      ((start t () options input).items steps).2 = (emitting.items steps).2.quiet := by
  obtain ⟨_ | _, reset⟩ := options
  · right
    rw [← start_quiet, items_quiet_snd]
  · exact .inl rfl

/-- At whatever place a lexer is that has started, there is one that emits newlines. -/
theorem finished_or_exists_inLine (isLocal : t.IsLocal) (input : Bytes) (reset : Bool)
    (steps : Nat) :
    let l := ((start t () ⟨true, reset⟩ input).items steps).2
    l.finished = true ∨ ∃ p, InLine t input p l := by
  induction steps with
  | zero => exact (isAt_start t () input reset).symm.imp And.left fun here => ⟨0, here⟩
  | succ steps ih =>
    rw [items_succ_snd]
    obtain finished | ⟨p, here⟩ := ih
    · left
      simp only [advance, finished, if_true]
    · obtain (finished | ⟨q, _, there⟩) | ⟨there, _⟩ := here.advance_cases isLocal.readsOn
      · exact .inl finished
      · exact .inr ⟨q, there⟩
      · exact .inr ⟨p, there⟩

/-! ## The next item -/

/-- A lexer that ends within some steps comes to an item or to the end within as many. -/
theorem next_of_finished_items {steps : Nat} (finished : (l.items steps).2.finished = true) :
    (l.next steps).1.isSome = true ∨ (l.next steps).2.finished = true := by
  induction steps generalizing l with
  | zero => exact .inr finished
  | succ steps ih =>
    cases ended : l.finished with
    | true =>
      rw [next_of_finished ended]
      exact .inr ended
    | false =>
      rw [items_succ ended] at finished
      rw [next, if_neg (Bool.eq_false_iff.mp ended)]
      rcases advanced : l.advance with ⟨_ | item, after⟩
      · rw [advanced] at finished
        exact ih finished
      · exact .inl rfl

/-- Where steps yield nothing, the next item is not come to. -/
theorem next_of_items_eq_nil {steps : Nat} (none : (l.items steps).1 = []) :
    l.next steps = (Option.none, (l.items steps).2) := by
  induction steps generalizing l with
  | zero => rfl
  | succ steps ih =>
    cases ended : l.finished with
    | true => rw [next_of_finished ended, items_of_finished ended]
    | false =>
      rw [items_succ ended] at none ⊢
      rw [next, if_neg (Bool.eq_false_iff.mp ended)]
      obtain ⟨first, rest⟩ := List.append_eq_nil_iff.mp none
      rcases advanced : l.advance with ⟨_ | item, after⟩
      · rw [advanced] at rest
        exact ih rest
      · rw [advanced] at first
        cases first

/-- A lexer stops because a byte is taken by no state, or because a run has changed nothing. -/
theorem fault_of_error_mem_items {e : LexError σ} {steps : Nat}
    (failed : .error e ∈ (l.items steps).1) :
    (∃ state byte, e.fault = .unexpected state byte) ∨ ∃ state, e.fault = .stalled state := by
  have of_readRun (l : Lexer Unit σ κ) (failed : l.readRun.1 = some (.error e)) :
      (∃ state byte, e.fault = .unexpected state byte) ∨ ∃ state, e.fault = .stalled state := by
    unfold readRun at failed
    simp only at failed
    split at failed
    · cases failed
      exact .inl ⟨_, _, rfl⟩
    · split at failed
      · cases failed
      · split at failed <;> cases failed
        exact .inr ⟨_, rfl⟩
  induction steps generalizing l with
  | zero => cases failed
  | succ steps ih =>
    cases ended : l.finished with
    | true =>
      rw [items_of_finished ended] at failed
      cases failed
    | false =>
      rw [items_succ ended] at failed
      obtain now | later := List.mem_append.mp failed
      · rw [Option.mem_toList] at now
        unfold advance at now
        rw [if_neg (Bool.eq_false_iff.mp ended)] at now
        split at now
        · obtain ⟨lexemes, yields⟩ := exists_closeLine_fst l
          rw [now] at yields
          cases lexemes <;> cases yields
        · exact of_readRun l now
      · exact ih later

/-! ## Lexers at the start -/

section Start

variable (isLocal : t.IsLocal) (options : Options) (input : Bytes)
include isLocal

theorem items_start_of_circles {n : Nat}
    (circles : ((start t () options input).items n).2.Circles) (steps : Nat) :
    (((start t () options input).items n).2.items steps).1 = [] ∧
      (((start t () options input).items n).2.items steps).2.finished = false := by
  have place := finished_or_exists_inLine isLocal input options.resetPerLine n
  -- The lexer has the tokenizer and the cursor of one that emits newlines.
  obtain same | same := items_start_snd t options input n
  all_goals
    rw [same] at circles ⊢
    obtain ⟨p, here⟩ := place.resolve_left fun finished =>
      Bool.false_ne_true (circles.pending.symm.trans finished)
    exact circles.items (here.tokenizer.symm ▸ isLocal) here.wellFormed_beginToken steps

theorem finished_start_of_not_circles [Finite σ]
    (never : ∀ n, ¬ ((start t () options input).items n).2.Circles) :
    ((start t () options input).items ((input.length + 1) * Nat.card σ)).2.finished = true := by
  -- Places are known of lexers that emit newlines only.
  let emitting := start t () ⟨true, options.resetPerLine⟩ input
  have never' (n : Nat) : ¬ (emitting.items n).2.Circles := by
    intro circles
    apply never n
    obtain same | same := items_start_snd t options input n
    · rwa [same]
    · rw [same]
      exact ⟨circles.pending, circles.left, circles.comesBack⟩
  have ended : (emitting.items ((input.length + 1) * Nat.card σ)).2.finished = true := by
    obtain here | ⟨finished, _⟩ := isAt_start t () input options.resetPerLine
    · exact here.finished_of_not_circles isLocal never'
    · rw [items_of_finished finished]
      exact finished
  obtain same | same := items_start_snd t options input ((input.length + 1) * Nat.card σ)
  · rw [same]
    exact ended
  · rw [same]
    exact ended

end Start

/-- A lexer whose tokenizer looks at the state and the rest of the line only, with finitely many
states, ends unless it comes to a state that circles: after at most so many runs for each byte,
and for one more, as there are states it is finished, and the next item is never further away
than that. But from a state that circles it goes on forever, and the next item never comes. If
it stops before the end, a byte was taken by no state, or a run has changed nothing. -/
theorem ends_unless_circles [Finite σ] (isLocal : t.IsLocal) (options : Options)
    (input : Bytes) :
    let l := start t () options input
    let bound := (input.length + 1) * Nat.card σ
    ((∀ n, ¬ (l.items n).2.Circles) →
      ((l.items bound).2.finished = true ∧ ∀ steps ≥ bound, l.items steps = l.items bound) ∧
        ∀ n, ((l.items n).2.next bound).1.isSome = true ∨
          ((l.items n).2.next bound).2.finished = true) ∧
    (∀ n, (l.items n).2.Circles → ∀ steps,
      (l.items (n + steps)).1 = (l.items n).1 ∧ (l.items (n + steps)).2.finished = false ∧
        ((l.items n).2.next steps).1 = none ∧ ((l.items n).2.next steps).2.finished = false) ∧
    ∀ steps e, .error e ∈ (l.items steps).1 →
      (∃ state byte, e.fault = .unexpected state byte) ∨ ∃ state, e.fault = .stalled state := by
  intro l bound
  refine ⟨fun never => ?_, fun n circles steps => ?_, fun steps e => fault_of_error_mem_items⟩
  · have finished := finished_start_of_not_circles isLocal options input never
    refine ⟨⟨finished, fun steps => items_of_le finished⟩, fun n => next_of_finished_items ?_⟩
    -- From a later place it is no further to the end than from the start.
    have later : (l.items (n + bound)).2.finished = true := by
      rw [items_of_le finished (Nat.le_add_left bound n)]
      exact finished
    rwa [items_add] at later
  · obtain ⟨none, pending⟩ := items_start_of_circles isLocal options input circles steps
    rw [items_add, next_of_items_eq_nil none, none, List.append_nil]
    exact ⟨rfl, pending, rfl, pending⟩

/-! ## Two tokenizers that hand over -/

/-- Letters, and digits behind them. -/
def relay : Tokenizer Unit Bool RunClass where
  initial _ := false
  step _ state c :=
    match c.take (Scan.run (if state then RunClass.digit else .letter).mem) with
    | (some _, cursor) => ⟨some (if state then .digit else .letter), (), state, cursor⟩
    | (none, cursor) => ⟨if state then none else some .letter, (), true, cursor⟩

theorem isLocal_relay : relay.IsLocal where
  readsOn _ state c wf := by
    have leads : c.LeadsTo (c.take (Scan.run (if state then RunClass.digit else .letter).mem)).2 :=
      Cursor.leadsTo_take wf fun _ _ taken =>
        (Scan.run_eq_some.mp taken).1 ▸ (List.takeWhile_prefix _).length_le
    simp only [relay]
    split <;> rename_i taken <;> rwa [taken] at leads
  alike state c d _ _ rest := by
    simp only [relay]
    cases takes : Scan.run (if state then RunClass.digit else .letter).mem c.rest with
    | none =>
      rw [Cursor.take_eq_of_none takes, Cursor.take_eq_of_none (rest ▸ takes)]
      exact ⟨rfl, rfl, 0, rfl, rfl⟩
    | some n =>
      rw [Cursor.take_eq_of_some takes, Cursor.take_eq_of_some (rest ▸ takes)]
      exact ⟨rfl, rfl, n, rfl, rfl⟩

/-- Digits do not hand over to letters. -/
theorem handsOver_relay {c : Cursor} {state next : Bool} (hands : relay.HandsOver c state next) :
    state = false ∧ next = true := by
  have step (state : Bool) : (relay.step () true c).state = true := by
    simp only [relay]
    split <;> rfl
  have keeps : (relay.classify () true c).state = true := by
    show (relay.classifyActive () true c).state = true
    unfold Tokenizer.classifyActive
    simp only
    split
    · exact step true
    · exact step true
  cases state with
  | false => exact ⟨rfl, by simpa using hands.other⟩
  | true => exact absurd (hands.leaves.symm.trans keeps) hands.other

theorem not_circles_relay {l : Lexer Unit Bool RunClass} (same : l.tokenizer = relay) :
    ¬ l.Circles := by
  intro circles
  have comesBack := circles.comesBack
  rw [same] at comesBack
  obtain ⟨next, first, _⟩ := Relation.TransGen.head'_iff.mp comesBack
  obtain ⟨_, _, last⟩ := Relation.TransGen.tail'_iff.mp comesBack
  exact Bool.false_ne_true ((handsOver_relay first).1.symm.trans (handsOver_relay last).2)

/-- A letter and a digit, with a run of zero bytes in between, and a byte that nothing takes. -/
theorem ends_unless_circles_relay :
    let l := start relay () ⟨true, true⟩ (Bytes.ofText "a1!")
    (relay.IsLocal ∧ ∀ n, ¬ (l.items n).2.Circles) ∧
      (l.items 8).1 = [.ok ⟨.letter, 0, 1, 1⟩, .ok ⟨.digit, 1, 2, 1⟩,
        .error ⟨.unexpected true 0x21, 2, 1⟩] ∧
      ((l.items 8).2.finished = true ∧ ∀ steps ≥ 8, l.items steps = l.items 8) := by
  have never (n : Nat) : ¬ ((start relay () ⟨true, true⟩ (Bytes.ofText "a1!")).items n).2.Circles :=
    fun circles => by
      obtain ⟨p, here⟩ := (finished_or_exists_inLine isLocal_relay _ true n).resolve_left
        fun finished => Bool.false_ne_true (circles.pending.symm.trans finished)
      exact not_circles_relay here.tokenizer circles
  have bound : ((Bytes.ofText "a1!").length + 1) * Nat.card Bool = 8 := by
    rw [Nat.card_eq_fintype_card, Fintype.card_bool]
    decide
  have ends := (ends_unless_circles isLocal_relay ⟨true, true⟩ (Bytes.ofText "a1!")).1 never
  simp only [bound] at ends
  dsimp only
  exact ⟨⟨isLocal_relay, never⟩, by decide +kernel, ends.1⟩

/-- Two states, each of which hands over to the other. -/
def seesaw : RuleTable Bool Unit where
  initial := false
  space := none
  fallback := none
  newline := none
  rules state := [⟨[], some (), some !state⟩]

theorem step_seesaw (state : Bool) (c : Cursor) :
    seesaw.tokenizer.step () state c = ⟨some (), (), !state, c⟩ := by
  simp only [RuleTable.tokenizer, seesaw, RuleTable.applyRules, Command.tryAll_nil]
  rfl

theorem handsOver_seesaw (state : Bool) (c : Cursor) :
    seesaw.tokenizer.HandsOver c state (!state) := by
  have run : seesaw.tokenizer.classify () state c = ⟨some (), (), !state, c⟩ := by
    show seesaw.tokenizer.classifyActive () state c = _
    simp only [Tokenizer.classifyActive, step_seesaw, Option.isSome_some, if_true]
  exact ⟨by rw [run]; rfl, by rw [run], by rw [run], by cases state <;> decide⟩

/-- The first call of `next` never comes to anything: not to a token, an error or the end. -/
theorem next_seesaw :
    let l := start seesaw.tokenizer () ⟨true, true⟩ (Bytes.ofText "!")
    seesaw.tokenizer.IsLocal ∧
      ∀ steps, (l.next steps).1 = none ∧ (l.next steps).2.finished = false := by
  intro l
  have isLocal : seesaw.tokenizer.IsLocal := by
    refine ⟨fun _ state c wf => ?_, fun state c d _ _ _ => ?_⟩
    · rw [step_seesaw]
      exact ⟨rfl, rfl, Nat.le_refl _, wf.2.1⟩
    · rw [step_seesaw, step_seesaw]
      exact ⟨rfl, rfl, 0, rfl, rfl⟩
  have circles : l.Circles :=
    ⟨rfl, rfl, .tail (.single (handsOver_seesaw false _)) (handsOver_seesaw true _)⟩
  refine ⟨isLocal, fun steps => ?_⟩
  obtain ⟨none, pending⟩ := circles.items isLocal ⟨by decide, by decide, by decide⟩ steps
  rw [next_of_items_eq_nil none]
  exact ⟨rfl, pending⟩

end Lexer

end Octets
