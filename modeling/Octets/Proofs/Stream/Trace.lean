import Octets.Proofs.Bytes
import Octets.Proofs.Stream.Chunking

/-!
# Traces of a grammar

A trace leads from one session to another along the bytes that are read on the
way. A session is complete on some bytes when a trace along exactly these bytes
ends where the grammar is done. A stream without a limit on tokens is accepted
exactly if the session is complete on a front part of it, and then the rest of
the stream is left alone.

To take a stream apart, a complete session is inverted byte by byte
(`completes_cons_iff`), and at once over the bytes that a phase passes over
before it comes to one that it does not (`completes_scan_iff`).

## Main definitions

* `Grammar.Reads` — a trace along some bytes
* `Grammar.Completes` — a trace that ends where the grammar is done

## Main results

* `Reads.unique` — traces are deterministic
* `completes_cons_iff`, `completes_scan_iff` — a complete session taken apart
* `feed_eq_true_iff` — a stream is accepted iff it is complete on a front part
-/

namespace Octets.Stream.Grammar

variable {σ ε : Type} {g : Grammar σ ε} {s next last last' : Session σ}
  {bytes front back : Bytes} {b : UInt8} {token : Option Bytes}

/-- A trace from one session to another, along the bytes that are read. -/
inductive Reads (g : Grammar σ ε) : Session σ → Bytes → Session σ → Prop
  | nil (s : Session σ) : Reads g s [] s
  | cons {s next last : Session σ} {b : UInt8} {rest : Bytes} :
      g.isDone s.memory = false → g.read s b = .ok next → Reads g next rest last →
        Reads g s (b :: rest) last

/-- A trace that ends where the grammar is done. -/
def Completes (g : Grammar σ ε) (s : Session σ) (bytes : Bytes) (last : Session σ) : Prop :=
  g.Reads s bytes last ∧ g.isDone last.memory = true

/-! ## Steps -/

theorem read_outside {next : σ} (moves : g.move s.memory b = .outside next) :
    g.read s b = .ok { s with memory := next } := by
  simp only [read, moves]

theorem read_first {next : σ} (moves : g.move s.memory b = .first next) :
    g.read s b = .ok { s with memory := next, token := some [b] } := by
  simp only [read, moves]

theorem read_inside {next : σ} (moves : g.move s.memory b = .inside next) :
    g.read s b = .ok { s.extend [b] with memory := next } := by
  simp only [read, moves]

/-- Closing a token that is within the limit only asks what use there is for it. -/
theorem close_of_fits (fits : s.exceeded = none) (use : Bytes → Except ε σ) :
    g.close s use =
      (use s.openBytes).map fun next => { s with memory := next, token := none } := by
  simp only [close, collect, fits]
  cases use s.openBytes <;> rfl

theorem close_of_unlimited (unlimited : s.limit = none) (use : Bytes → Except ε σ) :
    g.close s use =
      (use s.openBytes).map fun next => { s with memory := next, token := none } :=
  close_of_fits (Session.exceeded_of_unlimited unlimited) use

theorem read_behind {next : σ} {use : Bytes → Except ε σ} (unlimited : s.limit = none)
    (moves : g.move s.memory b = .behind use) (used : use s.openBytes = .ok next) :
    g.read s b = .ok { s with memory := next, token := none } := by
  simp only [read, moves, close_of_unlimited unlimited, used, Except.map]

theorem read_last_of_fits {next : σ} {use : Bytes → Except ε σ}
    (fits : (s.extend [b]).exceeded = none) (moves : g.move s.memory b = .last use)
    (used : use (s.extend [b]).openBytes = .ok next) :
    g.read s b = .ok { s with memory := next, token := none } := by
  simp only [read, moves, close_of_fits fits, used, Except.map]
  rfl

theorem read_last_of_long {limit : Nat} {use : Bytes → Except ε σ}
    (long : (s.extend [b]).exceeded = some limit) (moves : g.move s.memory b = .last use) :
    g.read s b = .error (g.tooLong limit, 1) := by
  simp only [read, moves, close, collect, long]

theorem read_last {next : σ} {use : Bytes → Except ε σ} (unlimited : s.limit = none)
    (moves : g.move s.memory b = .last use) (used : use (s.extend [b]).openBytes = .ok next) :
    g.read s b = .ok { s with memory := next, token := none } :=
  read_last_of_fits (Session.exceeded_of_unlimited unlimited) moves used

/-- The memory before a step counts only for how the byte stands to the token. -/
theorem read_congr {m m' : σ} {limit : Option Nat} {n : Nat} (same : g.move m b = g.move m' b) :
    g.read ⟨m, token, limit, n⟩ b = g.read ⟨m', token, limit, n⟩ b := by
  unfold read
  simp only [same]
  cases g.move m' b <;> rfl

/-! ## Traces -/

theorem Reads.single (pending : g.isDone s.memory = false) (step : g.read s b = .ok next) :
    g.Reads s [b] next :=
  .cons pending step (.nil next)

theorem Reads.append (left : g.Reads s front next) (right : g.Reads next back last) :
    g.Reads s (front ++ back) last := by
  induction left with
  | nil _ => exact right
  | cons pending step _ ih => exact .cons pending step (ih right)

/-- Traces are deterministic. -/
theorem Reads.unique (trace : g.Reads s bytes last) (other : g.Reads s bytes last') :
    last = last' := by
  induction trace with
  | nil _ =>
    cases other
    rfl
  | cons _ step _ ih =>
    cases other with
    | cons _ step' rest' =>
      rw [step] at step'
      cases step'
      exact ih rest'

/-- What lies behind a trace is read from where the trace ends. -/
theorem Reads.readAll_append (trace : g.Reads s front last) (back : Bytes) :
    g.readAll s (front ++ back) =
      let reading := g.readAll last back
      { reading with taken := reading.taken + front.length } := by
  induction trace with
  | nil _ => rfl
  | cons pending step _ ih =>
    simp only [List.cons_append, readAll, pending, Bool.false_eq_true, if_false, step, ih,
      List.length_cons, Nat.add_assoc]

/-- A clean reading is a trace along the bytes that it took. -/
theorem reads_readAll (clean : (g.readAll s bytes).fault = none) :
    g.Reads s (bytes.take (g.readAll s bytes).taken) (g.readAll s bytes).session := by
  induction bytes generalizing s with
  | nil => exact .nil s
  | cons b rest ih =>
    unfold readAll at clean ⊢
    split
    · exact .nil s
    · rename_i pending
      rw [if_neg pending] at clean
      cases step : g.read s b with
      | error refusal => simp [step] at clean
      | ok next =>
        simp only [step] at clean
        exact .cons (by simpa using pending) step (ih clean)

/-! ## Complete sessions -/

theorem Completes.prepend (trace : g.Reads s front next) (complete : g.Completes next back last) :
    g.Completes s (front ++ back) last :=
  ⟨trace.append complete.1, complete.2⟩

theorem completes_cons_iff :
    g.Completes s (b :: bytes) last ↔
      g.isDone s.memory = false ∧ ∃ next, g.read s b = .ok next ∧ g.Completes next bytes last := by
  constructor
  · rintro ⟨trace, done⟩
    cases trace with
    | cons pending step rest => exact ⟨pending, _, step, rest, done⟩
  · rintro ⟨pending, next, step, rest, done⟩
    exact ⟨.cons pending step rest, done⟩

/-- No bytes complete a session that refuses the first of them. -/
theorem not_completes_of_refuse (refuses : ∃ fault, g.move s.memory b = .refuse fault) :
    ¬ g.Completes s (b :: bytes) last := by
  obtain ⟨fault, refused⟩ := refuses
  rw [completes_cons_iff]
  rintro ⟨_, next, step, _⟩
  simp [read, refused] at step

theorem completes_outside_iff {m m' : σ} {limit : Option Nat} {n : Nat}
    (pending : g.isDone m = false) (moves : g.move m b = .outside m') :
    g.Completes ⟨m, token, limit, n⟩ (b :: bytes) last ↔
      g.Completes ⟨m', token, limit, n⟩ bytes last := by
  have step : g.read ⟨m, token, limit, n⟩ b = .ok ⟨m', token, limit, n⟩ := read_outside moves
  simp only [completes_cons_iff, pending, step, Except.ok.injEq, true_and, exists_eq_left']

theorem completes_behind_iff {m m' : σ} {n : Nat} {use : Bytes → Except ε σ} {word : Bytes}
    (pending : g.isDone m = false) (moves : g.move m b = .behind use) (used : use word = .ok m') :
    g.Completes ⟨m, some word, none, n⟩ (b :: bytes) last ↔
      g.Completes ⟨m', none, none, n⟩ bytes last := by
  have step : g.read ⟨m, some word, none, n⟩ b = .ok ⟨m', none, none, n⟩ :=
    read_behind rfl moves used
  simp only [completes_cons_iff, pending, step, Except.ok.injEq, true_and, exists_eq_left']

/-- A byte in front of which a token ends is read as by a phase that takes it
between tokens. -/
theorem completes_end_congr {m m' m'' : σ} {n : Nat} {use : Bytes → Except ε σ} {word : Bytes}
    (pending : g.isDone m = false) (pending' : g.isDone m' = false)
    (moves : g.move m b = .behind use) (used : use word = .ok m'')
    (moves' : g.move m' b = .outside m'') :
    g.Completes ⟨m, some word, none, n⟩ (b :: bytes) last ↔
      g.Completes ⟨m', none, none, n⟩ (b :: bytes) last :=
  (completes_behind_iff pending moves used).trans (completes_outside_iff pending' moves').symm

theorem Completes.ne_nil (complete : g.Completes s bytes last)
    (pending : g.isDone s.memory = false) : bytes ≠ [] := by
  rintro rfl
  obtain ⟨trace, done⟩ := complete
  cases trace
  rw [done] at pending
  cases pending

/-- A phase that only one byte fits into. -/
theorem completes_byte_iff {m m' : σ} {limit : Option Nat} {n : Nat} {c : UInt8}
    (pending : g.isDone m = false) (moves : g.move m c = .outside m')
    (refuses : ∀ b, b ≠ c → ∃ fault, g.move m b = .refuse fault) :
    g.Completes ⟨m, token, limit, n⟩ bytes last ↔
      ∃ rest, bytes = c :: rest ∧ g.Completes ⟨m', token, limit, n⟩ rest last := by
  constructor
  · intro complete
    obtain ⟨b, rest, rfl⟩ := List.exists_cons_of_ne_nil (complete.ne_nil pending)
    by_cases fits : b = c
    · subst fits
      exact ⟨rest, rfl, (completes_outside_iff pending moves).mp complete⟩
    · exact absurd complete (not_completes_of_refuse (refuses b fits))
  · rintro ⟨rest, rfl, complete⟩
    exact (completes_outside_iff pending moves).mpr complete

/-- A done session is complete on no bytes but the empty string. -/
theorem completes_of_done_iff (done : g.isDone s.memory = true) :
    g.Completes s bytes last ↔ bytes = [] ∧ last = s := by
  constructor
  · rintro ⟨trace, _⟩
    cases trace with
    | nil _ => exact ⟨rfl, rfl⟩
    | cons pending _ _ =>
      rw [done] at pending
      cases pending
  · rintro ⟨rfl, rfl⟩
    exact ⟨.nil _, done⟩

section Scan

variable (loop : Bytes → Session σ) {cls : UInt8 → Bool}

/-- Bytes that a phase passes over are a trace. -/
theorem reads_scan (pending : ∀ run, g.isDone (loop run).memory = false)
    (pass : ∀ run b, cls b = true → g.read (loop run) b = .ok (loop (run ++ [b])))
    (seen run : Bytes) (all : ∀ b ∈ run, cls b = true) :
    g.Reads (loop seen) run (loop (seen ++ run)) := by
  induction run generalizing seen with
  | nil => simpa using Reads.nil (g := g) (loop seen)
  | cons b run ih =>
    have step := pass seen b (all b List.mem_cons_self)
    have rest := ih (seen ++ [b]) fun c member => all c (List.mem_cons_of_mem b member)
    rw [List.append_assoc, List.singleton_append] at rest
    exact .cons (pending seen) step rest

/-- A phase that passes over the bytes of a class is complete on some bytes if it
is on them from the first byte that is not of the class. -/
theorem completes_scan_iff (pending : ∀ run, g.isDone (loop run).memory = false)
    (pass : ∀ run b, cls b = true → g.read (loop run) b = .ok (loop (run ++ [b])))
    (seen : Bytes) :
    g.Completes (loop seen) bytes last ↔
      ∃ run b rest, bytes = run ++ b :: rest ∧ (∀ c ∈ run, cls c = true) ∧ cls b = false ∧
        g.Completes (loop (seen ++ run)) (b :: rest) last := by
  constructor
  · intro complete
    -- The induction is on the bytes; what has been passed over so far is left open.
    induction bytes generalizing seen with
    | nil => exact absurd rfl (complete.ne_nil (pending seen))
    | cons b rest ih =>
      by_cases passed : cls b = true
      · obtain ⟨_, next, step, complete⟩ := completes_cons_iff.mp complete
        obtain rfl : loop (seen ++ [b]) = next :=
          Except.ok.inj ((pass seen b passed).symm.trans step)
        obtain ⟨run, c, rest, rfl, all, stop, complete⟩ := ih _ complete
        refine ⟨b :: run, c, rest, rfl, ?_, stop, ?_⟩
        · simpa [passed] using all
        · simpa using complete
      · refine ⟨[], b, rest, rfl, by simp, by simpa using passed, ?_⟩
        simpa using complete
  · rintro ⟨run, b, rest, rfl, all, _, complete⟩
    exact complete.prepend (reads_scan loop pending pass seen run all)

end Scan

section Token

variable {m m' : σ} (first rest : UInt8 → Bool) {limit : Option Nat} {n : Nat}

/-- A byte of a class that the open token takes is added to it. -/
theorem read_of_stays (stays : ∀ c, rest c = true → g.move m' c = .inside m') (run : Bytes)
    (c : UInt8) (inside : rest c = true) :
    g.read ⟨m', some run, limit, n⟩ c = .ok ⟨m', some (run ++ [c]), limit, n⟩ :=
  read_inside (stays c inside)

/-- The bytes of a token are a trace into it. -/
theorem reads_token (pending : g.isDone m = false) (pending' : g.isDone m' = false)
    (opens : g.move m b = .first m') (stays : ∀ c, rest c = true → g.move m' c = .inside m')
    {run : Bytes} (all : ∀ c ∈ run, rest c = true) :
    g.Reads ⟨m, none, limit, n⟩ (b :: run) ⟨m', some (b :: run), limit, n⟩ := by
  have opened : g.read ⟨m, none, limit, n⟩ b = .ok ⟨m', some [b], limit, n⟩ := read_first opens
  exact .cons pending opened
    (reads_scan (fun run => ⟨m', some run, limit, n⟩) (fun _ => pending') (read_of_stays rest stays)
      [b] run all)

/-- A token is read from its first byte up to the first byte that is none of it. -/
theorem completes_token_iff (pending : g.isDone m = false) (pending' : g.isDone m' = false)
    (opens : g.move m b = .first m') (stays : ∀ c, rest c = true → g.move m' c = .inside m') :
    g.Completes ⟨m, none, limit, n⟩ (b :: bytes) last ↔
      ∃ run c tail, bytes = run ++ c :: tail ∧ (∀ c ∈ run, rest c = true) ∧ rest c = false ∧
        g.Completes ⟨m', some (b :: run), limit, n⟩ (c :: tail) last := by
  have opened : g.read ⟨m, none, limit, n⟩ b = .ok ⟨m', some [b], limit, n⟩ := read_first opens
  rw [completes_cons_iff]
  simp only [pending, opened, Except.ok.injEq, true_and, exists_eq_left']
  exact completes_scan_iff (fun run => ⟨m', some run, limit, n⟩) (fun _ => pending')
    (read_of_stays rest stays) [b]

/-- A word is read as a token. -/
theorem completes_word_iff_of_first (pending : g.isDone m = false) (pending' : g.isDone m' = false)
    (opens : ∀ b, first b = true → g.move m b = .first m')
    (stays : ∀ c, rest c = true → g.move m' c = .inside m') (fits : first b = true) :
    g.Completes ⟨m, none, limit, n⟩ (b :: bytes) last ↔
      ∃ word c tail, Bytes.IsWord (first · = true) (rest · = true) word ∧
        b :: bytes = word ++ c :: tail ∧ rest c = false ∧
        g.Completes ⟨m', some word, limit, n⟩ (c :: tail) last := by
  rw [completes_token_iff rest pending pending' (opens b fits) stays]
  constructor
  · rintro ⟨run, c, tail, rfl, all, stop, complete⟩
    exact ⟨b :: run, c, tail, ⟨b, run, rfl, fits, all⟩, rfl, stop, complete⟩
  · rintro ⟨word, c, tail, ⟨d, run, rfl, _, all⟩, cut, stop, complete⟩
    obtain ⟨rfl, rfl⟩ := List.cons.inj cut
    exact ⟨run, c, tail, rfl, all, stop, complete⟩

/-- Where nothing but a word fits, a word is read. -/
theorem completes_word_iff (pending : g.isDone m = false) (pending' : g.isDone m' = false)
    (opens : ∀ b, first b = true → g.move m b = .first m')
    (refuses : ∀ b, first b = false → ∃ fault, g.move m b = .refuse fault)
    (stays : ∀ c, rest c = true → g.move m' c = .inside m') :
    g.Completes ⟨m, none, limit, n⟩ bytes last ↔
      ∃ word c tail, Bytes.IsWord (first · = true) (rest · = true) word ∧
        bytes = word ++ c :: tail ∧ rest c = false ∧
        g.Completes ⟨m', some word, limit, n⟩ (c :: tail) last := by
  constructor
  · intro complete
    obtain ⟨b, tail, rfl⟩ := List.exists_cons_of_ne_nil (complete.ne_nil pending)
    cases fits : first b with
    | true =>
      exact (completes_word_iff_of_first first rest pending pending' opens stays fits).mp complete
    | false => exact absurd complete (not_completes_of_refuse (refuses b fits))
  · rintro ⟨word, c, tail, ⟨b, run, rfl, fits, all⟩, rfl, stop, complete⟩
    exact (completes_word_iff_of_first first rest pending pending' opens stays fits).mpr
      ⟨b :: run, c, tail, ⟨b, run, rfl, fits, all⟩, rfl, stop, complete⟩

end Token

/-! ## Accepted streams -/

/-- A session that is complete on the front of a chunk takes just that. -/
theorem feed_of_completes (unlimited : s.limit = none) (complete : g.Completes s front last)
    (back : Bytes) :
    g.feed s (front ++ back) = (last.recount (s.consumed + front.length), .ok true) := by
  obtain ⟨trace, done⟩ := complete
  rw [feed_of_unlimited unlimited, trace.readAll_append back, readAll_of_done done]
  simp [done]

/-- However the stream is cut into chunks, they take the front of it on which the
session is complete, and leave the rest. -/
theorem feedAll_of_completes (unlimited : s.limit = none) (complete : g.Completes s front last)
    {chunks : List Bytes} (cut : chunks.flatten = front ++ back) :
    g.feedAll s chunks = (last.recount (s.consumed + front.length), .ok true) := by
  have settled : settle (g.feedAll s chunks) =
      .ok (last.recount (s.consumed + front.length)) := by
    rw [settle_feedAll unlimited, cut, feed_of_completes unlimited complete]
    rfl
  rw [feedAll_of_settle settled, Session.recount_memory, complete.2]

/-- A stream is accepted exactly if the session is complete on the front of it. -/
theorem feed_eq_true_iff (unlimited : s.limit = none) :
    (g.feed s bytes).2 = .ok true ↔ ∃ front last, front <+: bytes ∧ g.Completes s front last := by
  constructor
  · intro accepted
    -- The bytes that a clean reading took are the front that completes the session.
    rw [feed_of_unlimited unlimited] at accepted
    cases fault : (g.readAll s bytes).fault with
    | some _ => simp [fault] at accepted
    | none =>
      simp only [fault, Except.ok.injEq] at accepted
      exact ⟨_, _, List.take_prefix _ bytes, reads_readAll fault, accepted⟩
  · rintro ⟨front, last, ⟨back, rfl⟩, complete⟩
    rw [feed_of_completes unlimited complete]

end Octets.Stream.Grammar
