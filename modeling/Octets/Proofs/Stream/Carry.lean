import Octets.Proofs.Stream.Reached

/-!
# What is carried from chunk to chunk

The bytes of a token that is open at the end of a chunk are held over to the next one. They are
the last bytes of the stream so far, from where the token was begun: nothing of an earlier token
is in front of them, and none of them is missing.

This holds of orderly grammars without *gaps*: while a token is open, each byte is one more of it
or closes it.

## Main definitions

* `Grammar.Gapless` — no byte is passed over while a token is open
* `Grammar.Carries` — what is held over of a stream
* `Grammar.InStep` — a session that holds over just that, and only inside of a token

## Main results

* `Orderly.inStep_feedAll` — a session that chunks lead to is in step with them
-/

namespace Octets.Stream.Grammar

variable {σ ε : Type} {g : Grammar σ ε} {fresh s next last : Session σ}
  {bytes fed token : Bytes} {chunks : List Bytes} {b : UInt8} {Holds : σ → Bool → Prop}

/-- While a token is open, every byte is one more of it, or closes it. -/
def Gapless (g : Grammar σ ε) (Holds : σ → Bool → Prop) : Prop :=
  ∀ ⦃m : σ⦄ (b : UInt8) (next : σ), Holds m true → g.move m b ≠ .outside next

/-- An open token is made of the last bytes that were fed. In front of them no token is open, and
with each of them the open token is what has come since. -/
structure Carries (g : Grammar σ ε) (fresh : Session σ) (fed token : Bytes) : Prop where
  ne_nil : token ≠ []
  since : ∃ front, fed = front ++ token ∧ ∀ part, part <+: token →
    (g.feed fresh (front ++ part)).1.token = if part = [] then none else some part

/-- A session holds bytes over exactly inside of a token, and they are the last that were fed,
since the token was begun. -/
structure InStep (g : Grammar σ ε) (fresh : Session σ) (fed : Bytes) (s : Session σ)
    (isInside : Bool) : Prop where
  isSome_token : s.token.isSome = isInside
  openBytes_eq_nil : isInside = false → s.openBytes = []
  carries : ∀ token ∈ s.token, g.Carries fresh fed token

/-- The token that a call leaves open is the one at the end of the trace. -/
theorem Reads.token_feed (trace : g.Reads s bytes last) :
    (g.feed s bytes).1.token = last.token := by
  have reading := trace.readAll_append []
  rw [List.append_nil] at reading
  have left := congrArg Session.token (feed_fst_recount g s bytes)
  rwa [reading] at left

section Orderly

variable (orderly : g.Orderly Holds) (gapless : g.Gapless Holds)
include orderly gapless

/-- One more byte is added to what is held over, or begins it, or leaves nothing of it. -/
theorem Orderly.carries_of_read (trace : g.Reads fresh fed s)
    (holds : Holds s.memory s.token.isSome) (pending : g.isDone s.memory = false)
    (carries : ∀ token ∈ s.token, g.Carries fresh fed token) (step : g.read s b = .ok next) :
    ∀ token ∈ next.token, g.Carries fresh (fed ++ [b]) token := by
  have whole := (trace.append (.single pending step)).token_feed
  refine read_leads (s := s) (b := b) (fun _ open' =>
    (g.feed fresh (fed ++ [b])).1.token = open' →
      ∀ token ∈ open', g.Carries fresh (fed ++ [b]) token) ?_ step whole
  have keeps := orderly.keeps b holds
  cases moves : g.move s.memory b with
  | outside memory =>
    intro _ token opened
    rw [opened] at holds
    exact absurd moves (gapless b memory holds)
  | first memory =>
    intro whole token first
    obtain rfl := Option.mem_some_iff.mp first
    rw [moves] at keeps
    have closed : s.token = none := by simpa using keeps.1
    refine ⟨List.cons_ne_nil b [], fed, rfl, fun part inside => ?_⟩
    rw [← List.nil_append [b], List.prefix_concat_iff] at inside
    obtain rfl | empty := inside
    · exact whole
    · rw [List.prefix_nil.mp empty, List.append_nil, trace.token_feed, closed]
      rfl
  | inside memory =>
    intro whole _ extended
    obtain ⟨token, opened, rfl⟩ := Option.map_eq_some_iff.mp extended
    obtain ⟨_, front, rfl, since⟩ := carries token opened
    refine ⟨List.append_ne_nil_of_right_ne_nil _ (List.cons_ne_nil b []), front,
      List.append_assoc _ _ _, fun part inside => ?_⟩
    obtain rfl | inside := List.prefix_concat_iff.mp inside
    · rw [← List.append_assoc, whole, opened, if_neg (by simp)]
      rfl
    · exact since part inside
  | behind use | last use => exact fun _ _ _ _ none => nomatch none
  | refuse fault => trivial

/-- The same, of a trace. -/
theorem Orderly.carries_of_reads (trace : g.Reads fresh fed s)
    (holds : Holds s.memory s.token.isSome)
    (carries : ∀ token ∈ s.token, g.Carries fresh fed token) (trace' : g.Reads s bytes last) :
    ∀ token ∈ last.token, g.Carries fresh (fed ++ bytes) token := by
  induction trace' generalizing fed with
  | nil _ => rwa [List.append_nil]
  | @cons s next last b rest pending step _ ih =>
    have carried := orderly.carries_of_read gapless trace holds pending carries step
    have further := ih (trace.append (.single pending step)) (orderly.read holds step) carried
    rwa [List.append_assoc] at further

/-- A session that chunks lead to is in step with them. -/
theorem Orderly.inStep_feedAll (closed : s.token = none) (holds : Holds s.memory s.token.isSome)
    {answer : Bool} (fed : g.feedAll s chunks = (last, .ok answer)) :
    Holds last.memory last.token.isSome ∧ g.InStep s chunks.flatten last last.token.isSome := by
  have holds' : Holds last.memory last.token.isSome := by
    obtain ⟨front, _, trace⟩ := exists_reads_feedAll g s chunks
    have reached := orderly.reads holds trace
    rwa [fed] at reached
  have none_left (isOpen : last.token.isSome = false) : last.openBytes = [] := by
    have closed : last.token = none := by simpa using isOpen
    rw [Session.openBytes, closed]
    rfl
  refine ⟨holds', rfl, none_left, ?_⟩
  cases answer with
  | false =>
    have none : ∀ token ∈ s.token, g.Carries s [] token := by simp [closed]
    have carries := orderly.carries_of_reads gapless (.nil s) holds none (reads_of_feedAll fed).1
    exact carries
  | true =>
    -- The stream does not end inside of a token.
    intro token opened
    rw [Option.mem_def.mp opened] at holds'
    exact absurd (orderly.pending holds') (by simp [isDone_of_feedAll fed])

end Orderly

end Octets.Stream.Grammar
