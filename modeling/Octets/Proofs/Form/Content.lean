import Octets.Proofs.Form.Parts
import Octets.Proofs.Limit
import Octets.Proofs.Refusal
import Octets.Proofs.Stream.Reached

/-!
# The end of the data of a part

The data of a part end at the first delimiter behind them, wherever the stream is cut and
however near to a delimiter they have come before. What the phase counts is at all times the
longest overlap of the data with the front of the delimiter, and less than the whole of it. This
holds for any boundary that a reader takes, since no byte of one is a carriage return.

A limit on tokens refuses data that go on for too long, and nothing else of this changes.

## Main definitions

* `Form.Recognises` — what a reader knows of the boundary and of the data behind it
* `Form.UnlessTooLong` — what calls come to under a limit on tokens
* `Reader.inContent`, `Reader.behindPart` — a reader that has read data, and one that has read
  the delimiter behind them

## Main results

* `recognises_visit`, `Reader.recognises_feedAll` — every reader knows where in the delimiter it is
* `Reader.feedAll_content` — what becomes of the data of a part
-/

namespace Octets.Form

open Octets.Stream Octets.Stream.Grammar

/-! ## The first delimiter -/

section First

variable {delimiter content : Bytes} {i : Nat}

/-- In front of the first delimiter there is none. -/
theorem IsDelimiter.not_infix_take (valid : IsDelimiter delimiter)
    (first : IsLeast {i | delimiter <+: content.drop i} i) : ¬ delimiter <:+: content.take i := by
  rintro ⟨front, back, cut⟩
  have length := congrArg List.length cut
  have nonempty : 0 < delimiter.length := by
    obtain ⟨rest, rfl, _⟩ := valid
    exact Nat.succ_pos _
  have earlier : delimiter <+: content.drop front.length := by
    rw [← List.take_append_drop i content, ← cut, List.append_assoc, List.append_assoc,
      List.drop_left]
    exact List.prefix_append _ _
  have least := first.2 earlier
  simp only [List.length_append, List.length_take] at length
  omega

theorem eq_take_append (at_i : delimiter <+: content.drop i) :
    content = content.take i ++ delimiter ++ content.drop (i + delimiter.length) := by
  obtain ⟨rest, cut⟩ := at_i
  have behind : content.drop (i + delimiter.length) = rest := by
    rw [← List.drop_drop, ← cut, List.drop_left]
  rw [behind, List.append_assoc, cut, List.take_append_drop]

theorem length_take_append (at_i : delimiter <+: content.drop i) (nonempty : 0 < delimiter.length) :
    (content.take i ++ delimiter).length = i + delimiter.length := by
  have fits := at_i.length_le
  rw [List.length_drop] at fits
  rw [List.length_append, List.length_take]
  omega

end First

/-! ## What a reader knows -/

/-- A reader that is past the line of a boundary has a delimiter made from that, and in the data
of a part it knows how far they match it. On the line of a boundary it holds what has come. -/
def Recognises (m : Memory) (token : Option Bytes) : Prop :=
  match m.phase with
  | .start | .keyRest | .nextKey | .value | .valueRest | .done => True
  | .dash => token = some [Byte.minus]
  | .boundary => ∃ bytes, token = some (dashes ++ bytes) ∧ ∀ b ∈ bytes, isBoundary b = true
  | .content matched => ∃ boundary : Boundary, ∃ data, m.delimiter = boundary.delimiter ∧
      token = some data ∧ Matches boundary.delimiter data matched
  | .headerLineFeed | .contentLineFeed | .header | .headerRest | .contentStart
  | .afterBoundary | .lastDash => ∃ boundary : Boundary, m.delimiter = boundary.delimiter

section Recognised

variable {m next : Memory} {token : Option Bytes} {line bytes : Bytes} {b : UInt8}

/-- The token of a line with a boundary makes a delimiter, or it is refused. -/
theorem exists_boundary_of_storeBoundary (fits : ∀ b ∈ bytes, isBoundary b = true)
    (stored : m.storeBoundary (dashes ++ bytes) = .ok next) :
    ∃ boundary : Boundary, next.delimiter = boundary.delimiter := by
  unfold Memory.storeBoundary at stored
  split at stored
  · cases stored
  · rename_i long
    cases stored
    have length : 2 ≤ bytes.length := by
      simp only [dashes, List.length_append, List.length_cons, List.length_nil] at long
      omega
    exact ⟨⟨bytes, length, fits⟩, rfl⟩

theorem recognises_visitKey (m : Memory) (token : Option Bytes) (b : UInt8) :
    (visitKey m b).Leads Recognises token b := by
  unfold visitKey
  repeat' split
  · trivial
  · intro next used
    obtain ⟨_, _, rfl⟩ := Memory.map_enter_eq_ok_iff.mp used
    trivial
  · trivial

/-- In the data of a part the next byte completes the delimiter or moves the match along. -/
theorem recognises_visitContent {boundary : Boundary} {data : Bytes} {matched : Nat}
    (delimiter : m.delimiter = boundary.delimiter)
    (matches' : Matches boundary.delimiter data matched) :
    (visitContent m matched b).Leads Recognises (some data) b := by
  unfold visitContent
  simp only [delimiter]
  split
  · intro next used
    obtain ⟨_, stored, rfl⟩ := Memory.map_enter_eq_ok_iff.mp used
    exact ⟨boundary, (delimiter_of_storePart stored).trans delimiter⟩
  · exact ⟨boundary, _, delimiter, rfl,
      (isDelimiter_delimiter boundary).matches_concat matches' ‹_›⟩

/-- One byte keeps what a reader knows. -/
theorem recognises_visit (holds : Recognises m token) :
    (visit m b).Leads Recognises token b := by
  obtain ⟨phase, form, key, delimiter, part⟩ := m
  -- The delimiter is made at the end of the line of the boundary, and no later phase makes another.
  cases phase with
  | start =>
    simp only [visit]
    split
    · exact congrArg some (List.singleton_inj.mpr ‹b = Byte.minus›)
    · split <;> trivial
  | dash =>
    simp only [visit]
    split
    · obtain rfl : token = _ := holds
      subst ‹b = Byte.minus›
      exact ⟨[], rfl, List.forall_mem_nil _⟩
    · exact recognises_visitKey _ token b
  | boundary =>
    obtain ⟨bytes, rfl, fits⟩ := holds
    simp only [visit]
    split
    · exact ⟨bytes ++ [b], by simp, List.forall_mem_append.mpr
        ⟨fits, List.forall_mem_singleton.mpr ‹_›⟩⟩
    · split
      · intro next used
        obtain ⟨_, stored, rfl⟩ := Memory.map_enter_eq_ok_iff.mp used
        obtain ⟨boundary, recognised⟩ := exists_boundary_of_storeBoundary fits stored
        exact ⟨boundary, recognised⟩
      · trivial
  | keyRest => exact recognises_visitKey _ token b
  | nextKey | value =>
    simp only [visit]
    repeat' split
    all_goals trivial
  | valueRest =>
    simp only [visit]
    repeat' split
    all_goals first
    | trivial
    | exact fun _ used => by obtain ⟨_, _, rfl⟩ := Memory.map_enter_eq_ok_iff.mp used; trivial
  | headerRest =>
    obtain ⟨boundary, recognised⟩ := holds
    simp only [visit]
    split
    · exact ⟨boundary, recognised⟩
    · split
      · intro next used
        obtain ⟨_, stored, rfl⟩ := Memory.map_enter_eq_ok_iff.mp used
        exact ⟨boundary, (delimiter_of_storeHeader stored).trans recognised⟩
      · trivial
  | contentStart =>
    obtain ⟨boundary, recognised⟩ := holds
    obtain rfl : delimiter = boundary.delimiter := recognised
    exact ⟨boundary, [b], rfl, rfl, (isDelimiter_delimiter boundary).matches_singleton
      (one_lt_length_delimiter boundary) b⟩
  | content matched =>
    obtain ⟨boundary, data, recognised, rfl, matches'⟩ := holds
    exact recognises_visitContent recognised matches'
  | headerLineFeed | contentLineFeed | header | afterBoundary | lastDash =>
    obtain ⟨boundary, recognised⟩ := holds
    simp only [visit]
    repeat' split
    all_goals first
    | trivial
    | exact ⟨boundary, recognised⟩
  | done => trivial

/-- So do all bytes of a stream. -/
theorem recognises_of_reads {s last : Session Memory} (holds : Recognises s.memory s.token)
    (trace : grammar.Reads s bytes last) : Recognises last.memory last.token :=
  trace.leads (fun _ _ _ => recognises_visit) holds

end Recognised

/-! ## Readers in front of the data of a part -/

/-- Calls have a result, or they fail since a token has more bytes than the limit. -/
def UnlessTooLong (options : Options) (run : Reader × Except Failure Bool) (length : Nat)
    (Result : Prop) : Prop :=
  match options.maxTokenLength with
  | none => Result
  | some limit =>
    if length ≤ limit then Result
    else ∃ offset, run.2 = .error ⟨.tokenTooLong limit, offset⟩

theorem unlessTooLong {options : Options} {run : Reader × Except Failure Bool} {length : Nat}
    {Result : Prop} (fits : (∀ limit ∈ options.maxTokenLength, length ≤ limit) → Result)
    (long : ∀ limit, options.maxTokenLength = some limit → limit < length →
      ∃ offset, run.2 = .error ⟨.tokenTooLong limit, offset⟩) :
    UnlessTooLong options run length Result := by
  unfold UnlessTooLong
  split
  · exact fits (by simp [*])
  · split
    · exact fits (by simp [*])
    · exact long _ ‹_› (Nat.lt_of_not_le ‹_›)

namespace Reader

/-- The reader that calls leave, or the failure that has ended them. -/
def outcome (run : Reader × Except Failure Bool) : Except Failure Reader :=
  run.2.map fun _ => run.1

/-- A reader in front of the data of a part, once it has read data that go on. -/
def inContent (r : Reader) (data : Bytes) (matched : Nat) : Reader :=
  ⟨{ r.session with
    memory := r.session.memory.enter (.content matched)
    token := some data
    consumed := r.session.consumed + data.length }⟩

/-- A reader in front of the data of a part, once it has read all of them and the delimiter: they
have been stored. -/
def behindPart (r : Reader) (data : Bytes) : Reader :=
  let m := r.session.memory
  ⟨{ r.session with
    memory := { m with phase := .afterBoundary, form := m.form.addPart m.part data, part := .empty }
    token := none
    consumed := r.session.consumed + (data ++ m.delimiter).length }⟩

variable {options : Options} {opening chunks : List Bytes} {r : Reader} {content : Bytes}

theorem consumed_start (options : Options) : (start options).session.consumed = 0 := rfl

theorem outcome_feedAll (r : Reader) (chunks : List Bytes) :
    outcome (r.feedAll chunks) = (settle (grammar.feedAll r.session chunks)).map (⟨·⟩) := by
  rw [← feedAll_session]
  rcases r.feedAll chunks with ⟨next, failure | answer⟩ <;> rfl

theorem eq_of_feedAll {s : Session Memory} {answer : Except Failure Bool}
    (fed : grammar.feedAll r.session chunks = (s, answer)) : r.feedAll chunks = (⟨s⟩, answer) := by
  rw [← feedAll_session, Prod.mk.injEq] at fed
  exact Prod.ext (congrArg Reader.mk fed.1) fed.2

/-- Whatever comes of some chunks, the reader knows where in the delimiter it is. -/
theorem recognises_feedAll (options : Options) (chunks : List Bytes) :
    let s := ((start options).feedAll chunks).1.session
    Recognises s.memory s.token := by
  obtain ⟨front, _, trace⟩ := exists_reads_feedAll grammar (start options).session chunks
  rw [← session_feedAll] at trace
  have known := recognises_of_reads (s := (start options).session) trivial trace
  exact known

/-- In front of the data of a part no token is open, the part has a name, and the delimiter is
known. -/
theorem session_of_contentStart (reached : (start options).feedAll opening = (r, .ok false))
    (begins : r.session.memory.phase = .contentStart) :
    ∃ m : Memory, r.session =
        ⟨m.enter .contentStart, none, options.maxTokenLength, opening.flatten.length⟩ ∧
      grammar.Reads (start options).session opening.flatten
        ⟨m.enter .contentStart, none, options.maxTokenLength, 0⟩ ∧
      m.part.name.isSome = true ∧ ∃ boundary : Boundary, m.delimiter = boundary.delimiter := by
  have call := feedAll_session (start options) opening
  rw [reached] at call
  obtain ⟨trace, count, _⟩ := reads_of_feedAll call.symm
  have isOpen := grammar_orderly.reads (s := (start options).session) rfl trace
  have named := grammar_prompt.reads (s := (start options).session) (fun data => nomatch data) trace
  have known := recognises_of_reads (s := (start options).session) trivial trace
  have limit : r.session.limit = options.maxTokenLength := trace.frame.1
  have count : r.session.consumed = opening.flatten.length := count.trans (Nat.zero_add _)
  obtain ⟨⟨⟨phase, form, key, delimiter, part⟩, token, bound, consumed⟩⟩ := r
  obtain rfl : phase = .contentStart := begins
  obtain rfl : bound = options.maxTokenLength := limit
  obtain rfl : consumed = opening.flatten.length := count
  obtain rfl : token = none := by
    cases token with
    | none => rfl
    | some token => cases isOpen
  exact ⟨⟨.contentStart, form, key, delimiter, part⟩, rfl, trace, named rfl, known⟩

section Reached

variable {m : Memory} {front data rest : Bytes} {limit : Nat}
  (trace : grammar.Reads (start options).session front
    ⟨m.enter .contentStart, none, options.maxTokenLength, 0⟩)
  (valid : IsDelimiter m.delimiter) (wide : 1 < m.delimiter.length)
include trace valid wide

/-- Data that hold no delimiter are read into the open token. -/
theorem exists_reads_content (nonempty : content ≠ []) (clean : ¬ m.delimiter <:+: content) :
    ∃ k, Matches m.delimiter content k ∧ grammar.Reads (start options).session (front ++ content)
      ⟨m.enter (.content k), some content, options.maxTokenLength, 0⟩ := by
  obtain ⟨k, matches', data⟩ := reads_data _ 0 valid wide nonempty clean
  exact ⟨k, matches', trace.append data⟩

theorem feedAll_of_goesOn (nonempty : content ≠ []) (clean : ¬ m.delimiter <:+: content)
    (fits : ∀ limit ∈ options.maxTokenLength, content.length ≤ limit)
    (cut : chunks.flatten = front ++ content) :
    ∃ k, Matches m.delimiter content k ∧ grammar.feedAll (start options).session chunks =
      (⟨m.enter (.content k), some content, options.maxTokenLength,
        front.length + content.length⟩, .ok false) := by
  obtain ⟨k, matches', trace⟩ := exists_reads_content trace valid wide nonempty clean
  have fed := grammar_orderly.feedAll_of_reads (s := (start options).session) rfl trace
    (Session.exceeded_eq_none_iff.mpr fits) cut
  rw [consumed_start, Nat.zero_add, List.length_append] at fed
  exact ⟨k, matches', fed⟩

theorem exists_tooLong_of_goesOn (clean : ¬ m.delimiter <:+: content)
    (limited : options.maxTokenLength = some limit) (long : limit < content.length)
    (cut : chunks.flatten = front ++ content) :
    ∃ offset, (grammar.feedAll (start options).session chunks).2 =
      .error ⟨.tokenTooLong limit, offset⟩ := by
  have nonempty : content ≠ [] := List.ne_nil_of_length_pos (Nat.zero_lt_of_lt long)
  -- As one chunk the bytes are refused at their end, where the token is asked for its length.
  obtain ⟨k, _, trace⟩ := exists_reads_content trace valid wide nonempty clean
  refine exists_feedAll_eq_tooLong (s := (start options).session) limited rfl ?_
  rw [cut, ← List.append_nil (front ++ content), trace.fault_readChunk, readChunk_nil]
  simp [Session.exceeded, limited, long, grammar, Memory.enter]

/-- Data with the delimiter behind them are stored as a part, and what follows is read from
there. -/
theorem settle_feedAll_of_ends (named : m.part.name.isSome = true) (clean : ¬ m.delimiter <:+: data)
    (fits : ∀ limit ∈ options.maxTokenLength, (data ++ m.delimiter).length ≤ limit)
    (cut : chunks.flatten = front ++ (data ++ m.delimiter) ++ rest) :
    ∃ later, later.flatten = rest ∧ settle (grammar.feedAll (start options).session chunks) =
      settle (grammar.feedAll
        ⟨{ m with phase := .afterBoundary, form := m.form.addPart m.part data, part := .empty },
          none, options.maxTokenLength, front.length + (data ++ m.delimiter).length⟩ later) := by
  have part := reads_delimiter (n := 0) valid wide clean (storePart_append named data) fits
  obtain ⟨later, joined, same⟩ := grammar_orderly.exists_settle_feedAll
    (s := (start options).session) rfl (trace.append part) (Session.exceeded_of_closed rfl) cut
  rw [consumed_start, Nat.zero_add, List.length_append] at same
  exact ⟨later, joined, same⟩

theorem exists_tooLong_of_ends (clean : ¬ m.delimiter <:+: data)
    (limited : options.maxTokenLength = some limit) (long : limit < (data ++ m.delimiter).length)
    (cut : chunks.flatten = front ++ (data ++ m.delimiter) ++ rest) :
    ∃ offset, (grammar.feedAll (start options).session chunks).2 =
      .error ⟨.tokenTooLong limit, offset⟩ := by
  obtain ⟨before, b, k, split, inside, last⟩ :=
    exists_reads_last options.maxTokenLength 0 valid wide clean
  rw [split] at long
  -- The last byte of the delimiter closes the token, and with it that is too long.
  let s : Session Memory := ⟨m.enter (.content k), some before, options.maxTokenLength, 0⟩
  have exceeded : (s.extend [b]).exceeded = some limit := by
    simpa [s, Session.exceeded, Session.extend, limited] using long
  have closes : grammar.read s b = .error (.tokenTooLong limit, 1) :=
    read_last_of_long exceeded last
  refine exists_feedAll_eq_tooLong (s := (start options).session) limited rfl ?_
  have bytes : chunks.flatten = front ++ before ++ b :: rest := by simp [cut, split]
  rw [bytes, (trace.append inside).fault_readChunk, readChunk_cons_of_error rfl closes]
  rfl

end Reached

/-- Wherever a stream is cut, and under any limit on tokens: a reader in the data of a part has
counted the longest overlap of the data with the front of the delimiter, which is not the whole
of it, and there has been none. From the first byte of the data on it goes so until the first
delimiter has ended; there and nowhere else a part is stored, and its data are the bytes in front
of that delimiter. -/
theorem feedAll_content (options : Options) (chunks : List Bytes) :
    let run := (start options).feedAll chunks
    (∀ matched, run.1.session.memory.phase = .content matched →
      ∃ boundary : Boundary, ∃ data, run.1.session.memory.delimiter = boundary.delimiter ∧
        run.1.session.token = some data ∧ Matches boundary.delimiter data matched) ∧
    ∀ opening r content, (start options).feedAll opening = (r, .ok false) →
      r.session.memory.phase = .contentStart → chunks.flatten = opening.flatten ++ content →
      ∃ boundary : Boundary, r.session.memory.delimiter = boundary.delimiter ∧
        (content ≠ [] → ¬ boundary.delimiter <:+: content →
          UnlessTooLong options run content.length
            (∃ matched, Matches boundary.delimiter content matched ∧
              run = (r.inContent content matched, .ok false))) ∧
        ∀ i, IsLeast {i | boundary.delimiter <+: content.drop i} i →
          UnlessTooLong options run (i + boundary.delimiter.length)
            (∃ later, later.flatten = content.drop (i + boundary.delimiter.length) ∧
              outcome run = outcome ((r.behindPart (content.take i)).feedAll later)) := by
  intro run
  refine ⟨fun matched inside => ?_, fun opening r content reached begins cut => ?_⟩
  · have known : Recognises run.1.session.memory run.1.session.token :=
      recognises_feedAll options chunks
    rwa [Recognises, inside] at known
  obtain ⟨m, session, trace, named, boundary, recognised⟩ :=
    session_of_contentStart reached begins
  obtain rfl : r = ⟨_⟩ := congrArg Reader.mk session
  have valid : IsDelimiter m.delimiter := recognised ▸ isDelimiter_delimiter boundary
  have wide : 1 < m.delimiter.length := recognised ▸ one_lt_length_delimiter boundary
  refine ⟨boundary, recognised, fun nonempty clean => ?_, fun i first => ?_⟩
  · rw [← recognised] at clean ⊢
    refine unlessTooLong (fun fits => ?_) fun limit limited long => ?_
    · obtain ⟨matched, matches', fed⟩ := feedAll_of_goesOn trace valid wide nonempty clean fits cut
      exact ⟨matched, matches', eq_of_feedAll fed⟩
    · obtain ⟨offset, failed⟩ := exists_tooLong_of_goesOn trace valid wide clean limited long cut
      exact ⟨offset, (answer_feedAll _ _).trans failed⟩
  · rw [← recognised] at first ⊢
    -- A delimiter within the data in front would be an earlier one.
    have clean := valid.not_infix_take first
    have length := length_take_append first.1 (Nat.zero_lt_of_lt wide)
    have cut' : chunks.flatten = opening.flatten ++ (content.take i ++ m.delimiter) ++
        content.drop (i + m.delimiter.length) := by
      rw [List.append_assoc, ← eq_take_append first.1, cut]
    rw [← length]
    refine unlessTooLong (fun fits => ?_) fun limit limited long => ?_
    · obtain ⟨later, joined, same⟩ :=
        settle_feedAll_of_ends trace valid wide named clean fits cut'
      refine ⟨later, length ▸ joined, ?_⟩
      rw [outcome_feedAll, outcome_feedAll, same]
      rfl
    · obtain ⟨offset, failed⟩ := exists_tooLong_of_ends trace valid wide clean limited long cut'
      exact ⟨offset, (answer_feedAll _ _).trans failed⟩

/-- The data twice go on as a delimiter does, and then not. Behind the first delimiter come the
dashes that end the body. -/
theorem feedAll_content_nearDelimiters :
    let options : Options := ⟨4, some 60⟩
    let opening := [Bytes.ofText "--xY\r\nContent-Disposition: form-data; name=a\r\n\r\n"]
    let r := ((start options).feedAll opening).1
    let near := Bytes.ofText "p\r\n--x\r\r\n"
    let goesOn := (start options).feedAll (opening ++ [near.take 5, near.drop 5])
    let ends := (start options).feedAll (opening ++ [near, Bytes.ofText "--x", Bytes.ofText "Y--"])
    (Matches (Bytes.ofText "\r\n--xY") near 2 ∧ goesOn = (r.inContent near 2, .ok false)) ∧
      ∃ later, later.flatten = Bytes.ofText "--" ∧
        outcome ends = outcome ((r.behindPart (Bytes.ofText "p\r\n--x\r")).feedAll later) := by
  intro options opening r near goesOn ends
  have reached : (start options).feedAll opening = (r, .ok false) := by
    have answered : ((start options).feedAll opening).2.toOption = some false := by decide +kernel
    refine Prod.ext rfl ?_
    cases answer : ((start options).feedAll opening).2 <;> simp_all [Except.toOption]
  have begins : r.session.memory.phase = .contentStart := by decide +kernel
  have known : r.session.memory.delimiter = Bytes.ofText "\r\n--xY" := by decide +kernel
  constructor
  · have cut : (opening ++ [near.take 5, near.drop 5]).flatten = opening.flatten ++ near := rfl
    obtain ⟨boundary, recognised, content, _⟩ :=
      (feedAll_content options _).2 opening r near reached begins cut
    rw [← recognised, known] at content
    obtain ⟨matched, matches', fed⟩ := content (by decide) (by decide)
    have inside : goesOn.1.session.memory.phase = .content 2 := by decide +kernel
    obtain rfl : matched = 2 := by simpa [goesOn, fed, inContent, Memory.enter] using inside
    exact ⟨matches', fed⟩
  · have cut : (opening ++ [near, Bytes.ofText "--x", Bytes.ofText "Y--"]).flatten =
      opening.flatten ++ (near ++ Bytes.ofText "--xY--") := rfl
    obtain ⟨boundary, recognised, _, part⟩ :=
      (feedAll_content options _).2 opening r _ reached begins cut
    rw [← recognised, known] at part
    have nowhere : ∀ i < 7, ¬ Bytes.ofText "\r\n--xY" <+: (near ++ Bytes.ofText "--xY--").drop i := by
      decide
    have first : Bytes.ofText "\r\n--xY" <+: (near ++ Bytes.ofText "--xY--").drop 7 := by decide
    exact part 7 ⟨first, fun i found => Nat.le_of_not_lt fun less => nowhere i less found⟩

end Reader

end Octets.Form
