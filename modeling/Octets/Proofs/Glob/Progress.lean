import Octets.Proofs.Glob.Soundness
import Octets.Proofs.Lexer.Total

/-!
# Patterns without a matcher

The tokenizer of patterns and the assembly walk in step. What the tokenizer reads at a place is
what the group takes that is open there, so no token is ever misplaced, and the tokenizer reads
something wherever there is something left. The only refusals are plain text and groups that are
not closed on their line. Both are reported by an offset inside of the pattern.

## Main definitions

* `Assembly.BeginsBefore` — the open group began before some offset
* `Glob.IsAnchored` — an assembly, or a refusal by an offset

## Main results

* `Glob.readsAll_tokenizer` — the tokenizer reads something wherever there is something left
* `Glob.isAnchored_push`, `Glob.isAnchored_assemble` — one more token, and all of them
* `Glob.parse_closed` — what a pattern comes to
-/

namespace Octets.Glob

/-! ## The tokenizer -/

/-- Wherever bytes are left in a line, the tokenizer reads some of them. -/
theorem readsAll_tokenizer : tokenizer.ReadsAll := by
  intro _ s c wf unread
  obtain ⟨n, ahead, reads⟩ := isAhead_readToken s wf
  rw [classify_eq]
  split
  · rename_i read
    refine ⟨read, ?_⟩
    rw [ahead.2]
    exact Nat.lt_add_of_pos_right (reads read (Cursor.rest_ne_nil wf unread))
  -- What is refused is plain text up to the end of the line.
  · refine ⟨rfl, ?_⟩
    show c.pos < (readToken s c).cursor.stop
    rw [ahead.2]
    exact unread

/-! ## The assembly -/

/-- The group that is open, if one is, began before an offset. -/
def Assembly.BeginsBefore (bound : Nat) (a : Assembly) : Prop :=
  ∀ group ∈ a.group, group.offset < bound

/-- An assembly whose group began before an offset, or a refusal by one before it. -/
def IsAnchored (bound : Nat) : Except GlobError Assembly → Prop
  | .ok a => a.BeginsBefore bound
  | .error (.unanchored offset) => offset < bound
  | .error _ => False

variable {place next : Place} {front done : List Lexed} {a : Assembly} {group : Group}
  {token : Token} {text : Bytes} {offset bound : Nat}

theorem isAnchored_pushPlain (outside : a.group = none) (inside : offset < bound)
    (follows : Follows .body (token, text) next) (known : token ≠ .text) :
    IsAnchored bound (a.pushPlain token text offset) := by
  have shut (b : Assembly) (same : b.group = a.group) : b.BeginsBefore bound := by
    intro group member
    rw [same, outside] at member
    cases member
  cases follows with
  | separator | name | newline => exact shut _ rfl
  | anyRun => exact shut { a.flushLiteral with anyRun := true } (Assembly.group_flushLiteral a)
  | anyByte => exact shut (a.flushLiteral.addStep .any) (Assembly.group_flushLiteral a)
  | setOpen =>
    intro group member
    cases member
    exact inside
  | alternationOpen =>
    intro group member
    cases member
    exact inside
  | member takes => cases takes
  | rangeStart takes => cases takes
  | alternationName _ takes => cases takes
  | text => exact absurd rfl known

theorem isAnchored_pushGrouped (isOpen : IsOpen place front (some group))
    (inside : group.offset < bound) (open_group : a.group = some group)
    (follows : Follows place (token, text) next) (known : token ≠ .text) :
    IsAnchored bound (a.pushGrouped group token text) := by
  have goesOn (b : Assembly) {more : Group} (still : b.group = some more)
      (same : more.offset = group.offset) : b.BeginsBefore bound := by
    intro other member
    rw [still] at member
    cases member
    exact same ▸ inside
  have shut (b : Assembly) (closed : b.group = none) : b.BeginsBefore bound := by
    intro other member
    rw [closed] at member
    cases member
  cases follows with
  | setNegation =>
    cases isOpen
    exact goesOn _ rfl rfl
  | member takes single =>
    obtain ⟨_, _, _, _, members, _, _, _, rfl, _⟩ := isOpen.set_of_takesMember takes
    simp only [Assembly.pushGrouped, single.getLast?]
    exact goesOn _ rfl rfl
  | rangeStart takes =>
    obtain ⟨_, _, _, _, members, _, _, _, rfl, _⟩ := isOpen.set_of_takesMember takes
    exact goesOn _ rfl rfl
  | setRange =>
    cases isOpen
    exact goesOn _ rfl rfl
  | rangeEnd =>
    cases isOpen
    exact goesOn _ rfl rfl
  | setClose =>
    cases isOpen
    exact shut _ rfl
  | alternationName _ takes =>
    obtain ⟨_, _, _, _, _, rfl, _⟩ := isOpen.names_of_takesName takes
    exact goesOn _ rfl rfl
  | comma =>
    cases isOpen
    exact goesOn a open_group rfl
  | emptyClose =>
    cases isOpen
    exact shut _ rfl
  | alternationClose =>
    cases isOpen with
    | @alternationSeparator _ names => cases names <;> exact shut _ rfl
  -- No group outlasts its line.
  | newline => cases group <;> exact inside
  | text => exact absurd rfl known
  | _ => cases isOpen

/-- One more token that may follow is taken, or it is refused by an offset. -/
theorem isAnchored_push (isOpen : IsOpen place front a.group) (begins : a.BeginsBefore bound)
    (inside : offset < bound) (follows : Follows place (token, text) next) :
    IsAnchored bound (a.push token text offset) := by
  unfold Assembly.push
  split
  · exact inside
  · rename_i known
    cases open_group : a.group with
    | none =>
      rw [open_group] at isOpen
      cases isOpen
      exact isAnchored_pushPlain open_group inside follows known
    | some group =>
      rw [open_group] at isOpen
      exact isAnchored_pushGrouped isOpen (begins group open_group) open_group follows known

/-- All tokens, one after the other. -/
theorem isAnchored_assemble {pattern : Bytes} {lexemes : List (Lexeme Token)} {start : Nat}
    (read : HasRead place done a) (begins : a.BeginsBefore pattern.length)
    (tiles : Lexer.Tiles start lexemes pattern.length)
    (path : Path place (lexemes.map (lexed pattern)) next) :
    IsAnchored pattern.length (assemble pattern a (lexemes.map .ok)) := by
  induction lexemes generalizing place done a start with
  | nil => exact begins
  | cons lexeme lexemes ih =>
    cases tiles with
    | cons _ ascend tiles =>
      cases path with
      | cons follows path =>
        have inside : lexeme.start < pattern.length := Nat.lt_of_lt_of_le ascend tiles.le
        obtain ⟨_, _, _, _, _, isOpen, _⟩ := id read
        have pushed := isAnchored_push isOpen begins inside follows
        simp only [List.map_cons, assemble]
        cases result : a.push lexeme.kind (lexeme.bytes pattern) lexeme.start with
        | error e =>
          rw [result] at pushed
          exact pushed
        | ok b =>
          rw [result] at pushed
          exact ih (hasRead_push read follows result) pushed tiles path

/-- At the end of the pattern, a group that is still open is refused by its offset. -/
theorem finish_of_beginsBefore (begins : a.BeginsBefore bound) :
    (∃ m, a.finish = .ok m) ∨ ∃ offset < bound, a.finish = .error (.unanchored offset) := by
  unfold Assembly.finish
  split
  · exact .inr ⟨_, begins _ ‹_›, rfl⟩
  · exact .inl ⟨_, rfl⟩

/-! ## Patterns -/

/-- A pattern that is not empty has a matcher, or is refused by an offset inside of it. -/
theorem parse_of_ne_nil {pattern : Bytes} (some_byte : pattern ≠ []) :
    (∃ g, parse pattern = .ok g) ∨
      ∃ offset < pattern.length, parse pattern = .error (.unanchored offset) := by
  obtain ⟨lexemes, last, items, tiles, same, path⟩ := exists_path_tokens pattern
  have anchored :=
    isAnchored_assemble hasRead_empty (fun _ member => nomatch member) tiles (same ▸ path)
  unfold parse
  rw [if_neg (by simpa using some_byte)]
  simp only [items]
  cases assembled : assemble pattern .empty (lexemes.map .ok) with
  | error e =>
    rw [assembled] at anchored
    cases e with
    | unanchored offset => exact .inr ⟨offset, anchored, rfl⟩
    | _ => exact anchored.elim
  | ok a =>
    rw [assembled] at anchored
    obtain ⟨m, finished⟩ | ⟨offset, inside, refused⟩ := finish_of_beginsBefore anchored
    · simp only [finished]
      exact .inl ⟨_, rfl⟩
    · simp only [refused]
      exact .inr ⟨offset, inside, rfl⟩

/-- Patterns are closed under their own grammar. Whether states outlast their lines or not,
lexing a pattern comes to its end without an error, and the lexemes tile it. The empty pattern
is refused as such; every other one has a matcher, or is refused by an offset inside of it. -/
theorem parse_closed (pattern : Bytes) :
    (∀ reset, ∃ lexemes : List (Lexeme Token),
      (∀ more,
        let lexing := (lexer ⟨true, reset⟩ pattern).items (stepBound pattern + more)
        lexing.1 = lexemes.map .ok ∧ lexing.2.finished = true) ∧
      Lexer.Tiles 0 lexemes pattern.length ∧ lexemes.flatMap (·.bytes pattern) = pattern) ∧
    (parse pattern = .error .empty ↔ pattern = []) ∧
    ((∃ g, parse pattern = .ok g) ∨ parse pattern = .error .empty ∨
      ∃ offset < pattern.length, parse pattern = .error (.unanchored offset)) := by
  refine ⟨fun reset => ?_, ?_⟩
  · obtain ⟨lexemes, tiles, texts, items⟩ :=
      Lexer.exists_tiles_of_readsAll readsOn_tokenizer readsAll_tokenizer (fun _ => rfl) ()
        pattern reset
    have enough (more : Nat) : pattern.length < stepBound pattern + more :=
      Nat.lt_of_lt_of_le (Nat.lt_succ_self _) (Nat.le_add_right _ more)
    exact ⟨lexemes, fun more => (items _ (enough more)).1, tiles, texts⟩
  by_cases empty : pattern = []
  · subst empty
    exact ⟨⟨fun _ => rfl, fun _ => rfl⟩, .inr (.inl rfl)⟩
  · obtain ⟨g, parsed⟩ | ⟨offset, inside, refused⟩ := parse_of_ne_nil empty
    · exact ⟨by simp [parsed, empty], .inl ⟨g, parsed⟩⟩
    · exact ⟨by simp [refused, empty], .inr (.inr ⟨offset, inside, refused⟩)⟩

/-- A set that is not closed on its line is refused by its bracket. -/
example : parse (Bytes.ofText "a[b\n]") = .error (.unanchored 1) := by cbv

end Octets.Glob
